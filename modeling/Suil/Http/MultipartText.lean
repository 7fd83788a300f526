import Suil.Basic.CString
import Suil.Http.MultipartAtomic
import Suil.Http.ParseCookies

set_option autoImplicit false

/-! # Multipart forms, written and parsed

The encoding of a list of parts, and what `Request::parse_multipart_form` makes of it. A delimiter is
looked for at two dashes anywhere behind the first byte of a part, and what comes behind the last
delimiter has to have a byte. `recovers_iff` says which forms get through. -/

namespace Suil.Http.Multipart

open StepMachine PState

/-! ## The encoding -/

/-- A part: a field, or a file with its name; `headers` are the lines behind the disposition. -/
structure Part where
  name : Bytes
  filename : Option Bytes
  headers : List (Bytes × Bytes)
  data : Bytes
  deriving DecidableEq, Repr

namespace Part

/-- `filename="..."`, behind the name. -/
def second (p : Part) : Bytes :=
  match p.filename with
  | none => []
  | some f => str "; filename=\"" ++ (f ++ [DQUOTE])

/-- A header line. -/
def line (h : Bytes × Bytes) : Bytes := h.1 ++ COLON :: SP :: (h.2 ++ [CR, LF])

/-- The value of the disposition. -/
def disposition (p : Part) : Bytes :=
  str "form-data; name=\"" ++ (p.name ++ DQUOTE :: p.second)

/-- What is behind the delimiter of a part. -/
def behind (p : Part) : Bytes :=
  line (str "Content-Disposition", p.disposition) ++
    (p.headers.flatMap line ++ (CR :: LF :: (p.data ++ [CR, LF])))

/-- The file that a request has of the part. -/
def uploaded (p : Part) (f : Bytes) : UploadedFile := ⟨f, p.data.length, p.data⟩

/-- A delimiter that the parser takes for one is in the part. -/
def Dashed (p : Part) : Prop := [DASH, DASH] <:+: p.data.tail

instance (p : Part) : Decidable p.Dashed := inferInstanceAs (Decidable ([DASH, DASH] <:+: p.data.tail))

end Part

/-- Two dashes and the boundary. -/
def delimiter (boundary : Bytes) : Bytes := DASH :: DASH :: boundary

/-- The encoding, with what comes behind the last delimiter. -/
def text (boundary : Bytes) : List Part → Bytes → Bytes
  | [], tail => delimiter boundary ++ DASH :: DASH :: tail
  | p :: ps, tail => delimiter boundary ++ CR :: LF :: (p.behind ++ text boundary ps tail)

/-- The fields, with their values. -/
def fields (ps : List Part) : List (Bytes × Bytes) :=
  ps.filterMap fun p => if p.filename.isNone then some (p.name, p.data) else none

/-- The files, with what is known of them. -/
def uploads (ps : List Part) : List (Bytes × UploadedFile) :=
  ps.filterMap fun p => p.filename.map fun f => (p.name, p.uploaded f)

/-- What can stand between quotes. -/
def Quotable (s : Bytes) : Prop := DQUOTE ∉ s ∧ CR ∉ s ∧ NUL ∉ s

instance (s : Bytes) : Decidable (Quotable s) :=
  inferInstanceAs (Decidable (DQUOTE ∉ s ∧ CR ∉ s ∧ NUL ∉ s))

/-- What can be a header line. -/
def IsLine (h : Bytes × Bytes) : Prop :=
  (COLON ∉ h.1 ∧ CR ∉ h.1 ∧ NUL ∉ h.1) ∧ h.2 ≠ [] ∧ h.2.head? ≠ some SP ∧ CR ∉ h.2

instance (h : Bytes × Bytes) : Decidable (IsLine h) :=
  inferInstanceAs (Decidable ((COLON ∉ h.1 ∧ CR ∉ h.1 ∧ NUL ∉ h.1) ∧ h.2 ≠ [] ∧ h.2.head? ≠ some SP ∧
    CR ∉ h.2))

/-- A part that can be written with this boundary. -/
structure Part.Written (boundary : Bytes) (p : Part) : Prop where
  name : Quotable p.name
  filename : ∀ f ∈ p.filename, Quotable f
  headers : ∀ h ∈ p.headers, IsLine h
  data : ¬ delimiter boundary <:+: p.data

/-! ## Positions -/

section

variable {buf s t r : Bytes} {c : UInt8} {p q : Nat}

private theorem load_of_drop (h : buf.drop p = c :: r) : load buf p = .ok c := by
  have hget : buf[p]? = some c := by
    rw [← List.head?_drop, h]
    rfl
  rw [load, hget]

private theorem lt_of_drop (h : buf.drop p = c :: r) : p < buf.length := by
  by_contra hle
  rw [List.drop_eq_nil_of_le (Nat.le_of_not_lt hle)] at h
  exact List.cons_ne_nil c r h.symm

private theorem length_of_drop (h : buf.drop p = c :: r) :
    buf.length = p + r.length + 1 := by
  have hlen := congrArg List.length h
  rw [List.length_drop, List.length_cons] at hlen
  have := lt_of_drop h
  omega

private theorem drop_add (h : buf.drop p = t ++ r) : buf.drop (p + t.length) = r := by
  rw [← List.drop_drop, h, List.drop_left]

private theorem clear_of_lt (h : p < buf.length) : clear buf p = .ok (buf.set p NUL) := if_pos h

/-- What is written in front of a position is not seen behind it. -/
private theorem drop_set_front (h : q < p) : (buf.set q c).drop p = buf.drop p :=
  List.drop_set_of_lt h

/-- What is written behind a position is seen there. -/
private theorem drop_set_behind {d : UInt8} (h : buf.drop p = t ++ c :: r) :
    (buf.set (p + t.length) d).drop p = t ++ d :: r := by
  rw [List.drop_set, if_neg (by omega), h, Nat.add_sub_cancel_left,
    List.set_append_right _ _ (Nat.le_refl _), Nat.sub_self, List.set_cons_zero]

/-- There is a string at a position that ends in front of another. -/
def Stored (buf : Bytes) (q : Nat) (s : Bytes) (k : Nat) : Prop :=
  q + s.length < k ∧ ∃ r, buf.drop q = s ++ NUL :: r

theorem Stored.set {k i : Nat} (h : Stored buf q s k) (hi : k ≤ i) (c : UInt8) :
    Stored (buf.set i c) q s k := by
  obtain ⟨hlt, r, hr⟩ := h
  refine ⟨hlt, r.set (i - q - s.length - 1) c, ?_⟩
  have hsplit : i - q - s.length = (i - q - s.length - 1) + 1 := by omega
  rw [List.drop_set, if_neg (by omega), hr, List.set_append_right _ _ (by omega), hsplit,
    List.set_cons_succ, Nat.add_sub_cancel]

theorem Stored.mono {k k' : Nat} (h : Stored buf q s k) (hk : k ≤ k') : Stored buf q s k' :=
  ⟨Nat.lt_of_lt_of_le h.1 hk, h.2⟩

private theorem cstr_append (h : NUL ∉ s) (r : Bytes) : cstr (s ++ NUL :: r) = .ok s := by
  induction s with
  | nil => exact if_pos rfl
  | cons b s ih =>
      obtain ⟨hb, hs⟩ := not_or.mp (List.mem_cons.not.mp h)
      rw [List.cons_append, cstr, if_neg (Ne.symm hb), ih hs]
      rfl

theorem Stored.string_eq {k : Nat} (h : Stored buf q s k) (hs : NUL ∉ s) :
    string buf (some q) = .ok s := by
  obtain ⟨-, r, hr⟩ := h
  rw [string, hr, cstr_append hs]

end

/-! ## Comparing -/

private theorem cmp_self (s r : Bytes) (h : NUL ∉ s) : cmp id s.length (s ++ r) s = .ok true := by
  induction s with
  | nil => rw [List.length_nil, cmp]
  | cons b s ih =>
      obtain ⟨hb, hs⟩ := not_or.mp (List.mem_cons.not.mp h)
      rw [List.cons_append, List.length_cons, cmp, List.headD_cons, List.tail_cons,
        if_neg (not_not.mpr rfl), if_neg (Ne.symm hb), ih hs]

/-- A comparison stops at a byte that the other string does not have, and there is one. -/
private theorem cmp_other {s : Bytes} (hs : NUL ∉ s) (hcr : CR ∉ s) {x : Bytes} (hx : CR ∈ x)
    (h : ¬ s <+: x) : cmp id s.length x s = .ok false := by
  induction s generalizing x with
  | nil => exact absurd (List.nil_prefix) h
  | cons b s ih =>
      obtain ⟨hb, hnul⟩ := not_or.mp (List.mem_cons.not.mp hs)
      obtain ⟨hbcr, hfree⟩ := not_or.mp (List.mem_cons.not.mp hcr)
      cases x with
      | nil => exact absurd hx List.not_mem_nil
      | cons c x =>
          rw [List.length_cons, cmp, List.headD_cons, List.tail_cons]
          by_cases hbc : c = b
          · subst hbc
            have hx : CR ∈ x := (List.mem_cons.mp hx).resolve_left hbcr
            rw [if_neg (not_not.mpr rfl), if_neg (Ne.symm hb)]
            exact ih hnul hfree hx fun hpre => h (List.cons_prefix_cons.mpr ⟨rfl, hpre⟩)
          · exact if_pos hbc

private theorem goto_cr_append {e p : Nat} {t : Bytes} (ht : CR ∉ t) (he : p + t.length ≤ e)
    (r : Bytes) : goto_cr e (t ++ CR :: r) p = .ok (p + t.length) := by
  induction t generalizing p with
  | nil => exact if_neg fun h => h.1 rfl
  | cons b t ih =>
      obtain ⟨hb, ht⟩ := not_or.mp (List.mem_cons.not.mp ht)
      rw [List.length_cons] at he
      rw [List.cons_append, goto_cr, if_pos ⟨Ne.symm hb, by omega⟩, ih ht (by omega),
        List.length_cons]
      congr 1
      omega

private theorem goto_chr_append {e p : Nat} {c : UInt8} {t : Bytes} (ht : c ∉ t) (hcr : CR ∉ t)
    (he : p + t.length < e) (r : Bytes) : goto_chr e c (t ++ c :: r) p = .ok (p + t.length) := by
  induction t generalizing p with
  | nil =>
      rw [List.nil_append, goto_chr, if_neg (by rw [List.length_nil] at he; omega)]
      exact if_neg fun h => h.1 rfl
  | cons b t ih =>
      obtain ⟨hb, ht⟩ := not_or.mp (List.mem_cons.not.mp ht)
      obtain ⟨hbcr, hcr⟩ := not_or.mp (List.mem_cons.not.mp hcr)
      rw [List.length_cons] at he
      rw [List.cons_append, goto_chr, if_neg (by omega)]
      show (if b ≠ c ∧ b ≠ CR then goto_chr e c (t ++ c :: r) (p + 1) else .ok p) = _
      rw [if_pos ⟨Ne.symm hb, Ne.symm hbcr⟩, ih ht hcr (by omega), List.length_cons]
      congr 1
      omega

/-! ## Lines -/

/-- A header line is read, and its name ends with a NUL. -/
private theorem get_header_line {buf : Bytes} {p : Nat} {h : Bytes × Bytes} (hl : IsLine h) {s : Bytes}
    (hdrop : buf.drop p = Part.line h ++ s) : get_header buf p (buf.length - 1) =
      .ok { ok := true, buf := buf.set (p + h.1.length) NUL, p := p + (Part.line h).length - 1,
            f := p, v := p + h.1.length + 2 } := by
  obtain ⟨⟨hcolon, -, hnul⟩, hne, hhead, hcr⟩ := hl
  obtain ⟨b, v, hv⟩ := List.exists_cons_of_ne_nil hne
  have hb : b ≠ SP := fun hb => hhead (by rw [hv, hb]; rfl)
  have hvcr : CR ∉ v := fun hm => hcr (hv ▸ List.mem_cons_of_mem b hm)
  have hlen : (Part.line h).length = h.1.length + h.2.length + 4 := by
    simp only [Part.line, List.length_append, List.length_cons, List.length_nil]
    omega
  have hvlen : h.2.length = v.length + 1 := by rw [hv, List.length_cons]
  have htext : buf.drop p = h.1 ++ COLON :: ([SP] ++ (b :: v ++ CR :: LF :: s)) := by
    simp only [hdrop, Part.line, hv, List.append_assoc, List.cons_append, List.nil_append]
  have hat := drop_add htext
  have hsize := length_of_drop hat
  simp only [List.length_append, List.length_cons, List.length_nil] at hsize
  -- behind the colon nothing is written
  have hafter : ∀ k, (buf.set (p + h.1.length) NUL).drop (p + h.1.length + 1 + k) =
      ([SP] ++ (b :: v ++ CR :: LF :: s)).drop k := fun k => by
    rw [drop_set_front (by omega), ← List.drop_drop, drop_behind htext]
  have hspace : eat_space ((buf.set (p + h.1.length) NUL).drop (p + h.1.length + 1))
      (p + h.1.length + 1) = .ok (p + h.1.length + 2) := by
    rw [show p + h.1.length + 1 = p + h.1.length + 1 + 0 from rfl, hafter 0]
    have := eat_space_append 1 (t := b :: v ++ CR :: LF :: s) (List.cons_ne_nil _ _)
      (fun heq => hb (Option.some.inj heq)) (p + h.1.length + 1)
    simpa using this
  have hgoto : goto_cr (buf.length - 1) ((buf.set (p + h.1.length) NUL).drop
      (p + h.1.length + 2 + 1)) (p + h.1.length + 2 + 1) = .ok (p + h.1.length + 3 + v.length) := by
    rw [show p + h.1.length + 2 + 1 = p + h.1.length + 1 + 2 by omega, hafter 2]
    show goto_cr _ (v ++ CR :: LF :: s) _ = _
    rw [goto_cr_append hvcr (by omega)]
  have hend : (buf.set (p + h.1.length) NUL).drop (p + h.1.length + 3 + v.length) =
      CR :: LF :: s := by
    have := drop_add (t := h.1 ++ COLON :: SP :: b :: v) (r := CR :: LF :: s) (htext.trans (by simp))
    rw [drop_set_front (by omega), ← this]
    congr 1
    simp only [List.length_append, List.length_cons]
    omega
  have hlast : (buf.set (p + h.1.length) NUL).drop (p + h.1.length + 3 + v.length + 1) = LF :: s := by
    rw [← List.drop_drop, hend, List.drop_one, List.tail_cons]
  rw [get_header, htext, chr_append hcolon hnul]
  simp only [bind, Except.bind, clear_of_lt (lt_of_drop hat), hspace, hgoto, load_of_drop hend,
    load_of_drop hlast]
  rw [if_pos trivial, hlen, hvlen]
  simp only [decide_true]
  congr 2
  omega

/-- A quoted string is read up to its quote, and the separator behind it. -/
private theorem get_quoted_text {buf : Bytes} {p : Nat} {n : Bytes} (hn : Quotable n) {g : Bytes}
    (hg : g = [] ∨ g = [SEMI, SP]) {c : UInt8} (hc : c ≠ SP ∧ c ≠ SEMI) {r : Bytes}
    (h : buf.drop p = n ++ DQUOTE :: (g ++ c :: r)) : get_quoted buf p (buf.length - 1) =
      .ok (some (buf.set (p + n.length) NUL, p + n.length + 1 + g.length)) := by
  have hat := drop_add h
  have hsize := length_of_drop hat
  simp only [List.length_append, List.length_cons] at hsize
  have hbehind : (buf.set (p + n.length) NUL).drop (p + n.length + 1) = g ++ c :: r := by
    rw [drop_set_front (Nat.lt_succ_self _), drop_behind h]
  have hspace : ∀ x, eat_space (c :: r) x = .ok x := fun x => if_neg hc.1
  rw [get_quoted, h, goto_chr_append hn.1 hn.2.1 (by omega)]
  simp only [bind, Except.bind, load_of_drop hat, clear_of_lt (lt_of_drop hat), if_true]
  rcases hg with rfl | rfl
  · rw [List.nil_append] at hbehind
    simp only [load_of_drop hbehind, if_neg hc.2, hbehind, hspace]
    rfl
  · have hnext : (buf.set (p + n.length) NUL).drop (p + n.length + 1 + 1) = SP :: c :: r := by
      rw [← List.drop_drop, hbehind]
      rfl
    have heat : eat_space (SP :: c :: r) (p + n.length + 1 + 1) = .ok (p + n.length + 1 + 2) :=
      (if_pos rfl).trans (hspace _)
    simp only [load_of_drop hbehind, if_true, hnext, heat]
    rfl

section

variable {buf n g r s : Bytes} {q fuel : Nat} {c : UInt8} {name filename : Option Nat}

private theorem turn_name (hn : Quotable n) (hg : g = [] ∨ g = [SEMI, SP]) (hc : c ≠ SP ∧ c ≠ SEMI)
    (h : buf.drop q = str "name=\"" ++ (n ++ DQUOTE :: (g ++ c :: r))) :
    get_disposition (buf.length - 1) (fuel + 1) buf q name filename =
      get_disposition (buf.length - 1) fuel (buf.set (q + 6 + n.length) NUL)
        (q + 6 + n.length + 1 + g.length) (some (q + 6)) filename := by
  have hhead : buf.drop q = 110 :: (str "ame=\"" ++ (n ++ DQUOTE :: (g ++ c :: r))) := h
  have hsize := length_of_drop hhead
  simp only [List.length_append, List.length_cons] at hsize
  have hcmp : cmp toLower 4 (buf.drop q) (str "name=\"") = .ok true := by
    rw [h]
    rfl
  have hgo : (110 : UInt8) ≠ NUL ∧ q ≠ buf.length - 1 := ⟨by decide, by omega⟩
  have hq : buf.drop (q + 6) = n ++ DQUOTE :: (g ++ c :: r) := drop_add h
  rw [get_disposition]
  simp only [bind, Except.bind, load_of_drop hhead]
  rw [if_pos hgo]
  simp only [hcmp, if_true, get_quoted_text hn hg hc hq]

private theorem turn_filename (hn : Quotable n) (hg : g = [] ∨ g = [SEMI, SP])
    (hc : c ≠ SP ∧ c ≠ SEMI)
    (h : buf.drop q = str "filename=\"" ++ (n ++ DQUOTE :: (g ++ c :: r))) :
    get_disposition (buf.length - 1) (fuel + 1) buf q name filename =
      get_disposition (buf.length - 1) fuel (buf.set (q + 10 + n.length) NUL)
        (q + 10 + n.length + 1 + g.length) name (some (q + 10)) := by
  have hhead : buf.drop q = 102 :: (str "ilename=\"" ++ (n ++ DQUOTE :: (g ++ c :: r))) := h
  have hsize := length_of_drop hhead
  simp only [List.length_append, List.length_cons] at hsize
  have hnot : cmp toLower 4 (buf.drop q) (str "name=\"") = .ok false := by
    rw [h]
    rfl
  have hcmp : cmp toLower 10 (buf.drop q) (str "filename=\"") = .ok true := by
    rw [h]
    rfl
  have hgo : (102 : UInt8) ≠ NUL ∧ q ≠ buf.length - 1 := ⟨by decide, by omega⟩
  have hq : buf.drop (q + 10) = n ++ DQUOTE :: (g ++ c :: r) := drop_add h
  rw [get_disposition]
  simp only [bind, Except.bind, load_of_drop hhead]
  rw [if_pos hgo]
  simp only [hnot, hcmp, if_true, Bool.false_eq_true, if_false,
    get_quoted_text hn hg hc hq]

private theorem turn_end (h : buf.drop q = NUL :: r) (e : Nat) :
    get_disposition e (fuel + 1) buf q name filename = .ok ⟨true, buf, name, filename⟩ := by
  rw [get_disposition]
  simp only [bind, Except.bind, load_of_drop h]
  exact if_neg fun hgo => hgo.1 rfl

end

/-- The disposition is read: the strings of a part are stored, and what is behind its line is left. -/
private theorem get_disposition_text {buf : Bytes} {q : Nat} (fuel : Nat) {part : Part}
    (hname : Quotable part.name) (hfile : ∀ f ∈ part.filename, Quotable f) {s : Bytes}
    (h : buf.drop q = str "name=\"" ++ (part.name ++ DQUOTE :: (part.second ++ NUL :: s))) {k : Nat}
    (hk : k = q + 7 + part.name.length + part.second.length) :
    ∃ buf' filename, get_disposition (buf.length - 1) (fuel + 3) buf q none none =
        .ok { ok := true, buf := buf', name := some (q + 6), filename := filename } ∧
      buf'.length = buf.length ∧ buf'.drop k = buf.drop k ∧ Stored buf' (q + 6) part.name k ∧
      (match part.filename with
        | none => filename = none
        | some f => ∃ i, filename = some i ∧ Stored buf' i f k) := by
  have hq : buf.drop (q + 6) = part.name ++ DQUOTE :: (part.second ++ NUL :: s) := drop_add h
  have hstored : Stored (buf.set (q + 6 + part.name.length) NUL) (q + 6) part.name
      (q + 6 + part.name.length + 1) := ⟨Nat.lt_succ_self _, _, drop_set_behind hq⟩
  -- the quote behind the name is overwritten, and what follows it is as it was
  have hbehind : (buf.set (q + 6 + part.name.length) NUL).drop (q + 6 + part.name.length + 1) =
      part.second ++ NUL :: s := by
    rw [drop_set_front (Nat.lt_succ_self _), drop_behind hq]
  cases hfilename : part.filename with
  | none =>
      have hsecond : part.second = [] := by rw [Part.second, hfilename]
      rw [hsecond, List.nil_append] at hbehind h
      rw [hsecond, List.length_nil] at hk
      refine ⟨_, none, ?_, List.length_set, drop_set_front (by omega), hstored.mono (by omega), rfl⟩
      rw [turn_name hname (.inl rfl) (by decide : NUL ≠ SP ∧ NUL ≠ SEMI) h, List.length_nil,
        Nat.add_zero, turn_end hbehind]
  | some f =>
      have hf := hfile f hfilename
      have hsecond : part.second = str "; filename=\"" ++ (f ++ [DQUOTE]) := by
        rw [Part.second, hfilename]
      rw [hsecond] at hbehind h hk
      have hsplit : str "; filename=\"" ++ (f ++ [DQUOTE]) ++ NUL :: s =
          [SEMI, SP] ++ 102 :: (str "ilename=\"" ++ (f ++ DQUOTE :: NUL :: s)) := by
        simp only [List.append_assoc, List.cons_append, List.nil_append]
        rfl
      rw [hsplit] at hbehind h
      have hnext := drop_add hbehind
      have hfname : (buf.set (q + 6 + part.name.length) NUL).drop
          (q + 6 + part.name.length + 1 + 2 + 10) = f ++ DQUOTE :: NUL :: s :=
        drop_add (t := str "filename=\"") hnext
      have hlen : (str "; filename=\"" ++ (f ++ [DQUOTE])).length = f.length + 13 := by
        simp only [List.length_append, List.length_cons, List.length_nil]
        exact Nat.add_comm 12 (f.length + 1)
      -- one turn for the name, one for the file name, and one that finds the end
      have hturn : get_disposition (buf.length - 1) (fuel + 3) buf q none none = _ :=
        turn_name hname (.inr rfl) (by decide : (102 : UInt8) ≠ SP ∧ (102 : UInt8) ≠ SEMI) h
      have hturn' : get_disposition _ (fuel + 2) _ _ (some (q + 6)) none = _ :=
        turn_filename (g := []) hf (.inl rfl) (by decide : NUL ≠ SP ∧ NUL ≠ SEMI) hnext
      rw [List.length_set] at hturn'
      generalize hbuf : buf.set (q + 6 + part.name.length) NUL = buf₁ at *
      -- the file name ends in front of the NUL of the line
      have hlast : (buf₁.set (q + 6 + part.name.length + 1 + 2 + 10 + f.length) NUL).drop
          (q + 6 + part.name.length + 1 + 2 + 10 + f.length + 1) = NUL :: s := by
        rw [drop_set_front (Nat.lt_succ_self _), drop_behind hfname]
      refine ⟨_, some (q + 6 + part.name.length + 1 + 2 + 10),
        hturn.trans (hturn'.trans (turn_end hlast _)), ?_, ?_, ?_, _, rfl, ?_, _, drop_set_behind hfname⟩
      · rw [List.length_set, ← hbuf, List.length_set]
      · rw [drop_set_front (by omega), ← hbuf, drop_set_front (by omega)]
      · exact (hstored.set (by omega) NUL).mono (by omega)
      · omega

/-! ## The parts of a part -/

/-- The machine has read the disposition of a part; its strings are in front of a position. -/
structure Opened (part : Part) (m : Machine) (k : Nat) : Prop where
  cap : m.cap = false
  name : ∃ q, m.name = some q ∧ Stored m.buf q part.name k
  filename : match part.filename with
    | none => m.filename = none
    | some f => ∃ q, m.filename = some q ∧ Stored m.buf q f k

/-- What is written behind the position leaves them as they are. -/
private theorem Opened.kept {part : Part} {m m' : Machine} {k k' : Nat} (h : Opened part m k)
    (hcap : m'.cap = m.cap) (hname : m'.name = m.name) (hfilename : m'.filename = m.filename)
    (hbuf : ∀ q s, Stored m.buf q s k → Stored m'.buf q s k') : Opened part m' k' := by
  obtain ⟨q, hq, hs⟩ := h.name
  refine ⟨hcap.trans h.cap, ⟨q, hname.trans hq, hbuf _ _ hs⟩, ?_⟩
  have hfile := h.filename
  cases hf : part.filename with
  | none =>
      rw [hf] at hfile
      exact hfilename.trans hfile
  | some f =>
      rw [hf] at hfile
      obtain ⟨i, hi, hs⟩ := hfile
      exact ⟨i, hfilename.trans hi, hbuf _ _ hs⟩

private theorem isLine_disposition {part : Part} (hname : Quotable part.name)
    (hfile : ∀ f ∈ part.filename, Quotable f) :
    IsLine (str "Content-Disposition", part.disposition) := by
  have hfirst : COLON ∉ str "Content-Disposition" ∧ CR ∉ str "Content-Disposition" ∧
      NUL ∉ str "Content-Disposition" := by decide
  refine ⟨hfirst, List.cons_ne_nil _ _, fun h => absurd (Option.some.inj h) (by decide), ?_⟩
  have hsecond : CR ∉ part.second := by
    rw [Part.second]
    cases hf : part.filename with
    | none => exact List.not_mem_nil
    | some f =>
        have := (hfile f hf).2.1
        simp only [List.mem_append, not_or]
        exact ⟨by decide, this, by decide⟩
  simp only [Part.disposition, List.mem_append, List.mem_cons, not_or]
  exact ⟨by decide, hname.2.1, by decide, hsecond⟩

section

variable {m : Machine} {part : Part} {s : Bytes}

/-- The disposition is read. -/
private theorem atContent_text (hname : Quotable part.name) (hfile : ∀ f ∈ part.filename, Quotable f)
    (hcap : m.cap = false)
    (h : m.buf.drop m.p = Part.line (str "Content-Disposition", part.disposition) ++ s) :
    ∃ m', atContent m = .ok (.goon m') ∧ m'.next_state = state_header ∧ Opened part m' m'.p ∧
      m'.buf.drop m'.p = s ∧ SameMaps m m' := by
  have hdisp : part.disposition.length = 18 + part.name.length + part.second.length := by
    simp only [Part.disposition, List.length_append, List.length_cons]
    show 17 + _ = _
    omega
  have hlen : (Part.line (str "Content-Disposition", part.disposition)).length =
      23 + part.disposition.length := by
    simp only [Part.line, List.length_append, List.length_cons, List.length_nil]
    show 19 + _ = _
    omega
  have htext : m.buf.drop (m.p + 21) = part.disposition ++ CR :: LF :: s := by
    refine drop_add (t := str "Content-Disposition: ") (h.trans ?_)
    simp only [Part.line, List.append_assoc, List.cons_append, List.nil_append]
    rfl
  have hcolon : m.buf.drop m.p = str "Content-Disposition" ++ COLON ::
      SP :: (part.disposition ++ CR :: LF :: s) := by
    rw [h]
    simp only [Part.line, List.append_assoc, List.cons_append, List.nil_append]
  have hsize := length_of_drop (drop_add htext)
  rw [List.length_cons] at hsize
  have hheader : get_header m.buf m.p (m.buf.length - 1) =
      .ok ⟨true, m.buf.set (m.p + 19) NUL, m.p + (23 + part.disposition.length) - 1, m.p, m.p + 21⟩ := by
    rw [get_header_line (isLine_disposition hname hfile) h, hlen]
    rfl
  -- the name of the line and its end are overwritten, its value is not
  have hsecond : (m.buf.set (m.p + 19) NUL).drop (m.p + 21) = part.disposition ++ CR :: LF :: s := by
    rw [drop_set_front (by omega), htext]
  have hvalue := drop_set_behind (d := NUL) hsecond
  have hclear : m.p + (23 + part.disposition.length) - 2 = m.p + 21 + part.disposition.length := by
    omega
  have hfield : (m.buf.set (m.p + 19) NUL).drop m.p = str "Content-Disposition" ++ NUL ::
      SP :: (part.disposition ++ CR :: LF :: s) := drop_set_behind hcolon
  have hcmp : cmp toLower 20 ((m.buf.set (m.p + 19) NUL).drop m.p) (str "Content-Disposition") =
      .ok true := by
    rw [hfield]
    rfl
  generalize hbuf : (m.buf.set (m.p + 19) NUL).set (m.p + 21 + part.disposition.length) NUL = buf at *
  have hform : buf.drop (m.p + 21) = str "form-data; name=\"" ++
      (part.name ++ DQUOTE :: (part.second ++ NUL :: LF :: s)) := by
    rw [hvalue]
    simp only [Part.disposition, List.append_assoc, List.cons_append]
  have hcmp' : cmp toLower 9 (buf.drop (m.p + 21)) (str "form-data") = .ok true := by
    rw [hform]
    rfl
  have hname' : buf.drop (m.p + 21 + 11) = str "name=\"" ++
      (part.name ++ DQUOTE :: (part.second ++ NUL :: LF :: s)) :=
    drop_add (t := str "form-data; ") hform
  have hspace : buf.drop (m.p + 21 + 10) = SP :: (str "name=\"" ++
      (part.name ++ DQUOTE :: (part.second ++ NUL :: LF :: s))) :=
    drop_add (t := str "form-data;") hform
  have heat : eat_space (buf.drop (m.p + 21 + 10)) (m.p + 21 + 10) = .ok (m.p + 21 + 11) := by
    rw [hspace]
    rfl
  have hbuflen : buf.length = m.buf.length := by rw [← hbuf, List.length_set, List.length_set]
  have hfuel : buf.length = buf.length - 3 + 3 := by omega
  obtain ⟨buf', filename, hget, hlen', hdrop', hstored, hfilename⟩ :=
    get_disposition_text (buf.length - 3) hname hfile hname' (k := m.p + 21 + part.disposition.length)
      (by omega)
  rw [← hfuel] at hget
  have hend : buf'.drop (m.p + (23 + part.disposition.length)) = s := by
    have := hdrop'.trans (drop_add hvalue)
    rw [show m.p + (23 + part.disposition.length) = m.p + 21 + part.disposition.length + 2 by omega,
      ← List.drop_drop, this]
    rfl
  have hpos : m.p + (23 + part.disposition.length) - 1 + 1 = m.p + (23 + part.disposition.length) := by
    omega
  have hlt : m.p + 21 + part.disposition.length < (m.buf.set (m.p + 19) NUL).length := by
    rw [List.length_set]
    omega
  have hle : m.p + 21 + part.disposition.length ≤ m.p + (23 + part.disposition.length) := by omega
  refine ⟨{ m with
      buf := buf', p := m.p + (23 + part.disposition.length), state := state_content
      next_state := state_header, name := some (m.p + 21 + 11 + 6), filename := filename },
    ?_, rfl, ⟨hcap, ⟨_, rfl, hstored.mono hle⟩, ?_⟩, hend, rfl, rfl⟩
  · rw [atContent]
    simp only [bind, Except.bind, Machine.e]
    simp only [hheader, Bool.not_true, Bool.false_eq_true, if_false]
    rw [hcmp]
    simp only [if_true, hpos, hclear, clear_of_lt hlt, hbuf, hcmp', heat, hget]
  · cases hf : part.filename with
    | none =>
        rw [hf] at hfilename
        exact hfilename
    | some f =>
        rw [hf] at hfilename
        obtain ⟨i, hi, hs⟩ := hfilename
        exact ⟨i, hi, hs.mono hle⟩

/-- A header line is passed over. -/
private theorem atField_text {l : Bytes × Bytes} (hl : IsLine l)
    (h : m.buf.drop m.p = Part.line l ++ s) : atField m = .ok (.goon { m with
      buf := (m.buf.set (m.p + l.1.length) NUL).set (m.p + (Part.line l).length - 2) NUL
      p := m.p + (Part.line l).length }) := by
  have hlen : 4 ≤ (Part.line l).length := by
    simp only [Part.line, List.length_append, List.length_cons]
    omega
  have hline : m.buf.length = m.p + (Part.line l).length + s.length := by
    have hne : Part.line l ++ s ≠ [] := fun heq => by
      have := congrArg List.length heq
      rw [List.length_append, List.length_nil] at this
      omega
    obtain ⟨c, r, hcr⟩ := List.exists_cons_of_ne_nil hne
    have hsize := length_of_drop (h.trans hcr)
    have hboth := congrArg List.length hcr
    rw [List.length_append, List.length_cons] at hboth
    omega
  have hlt : m.p + (Part.line l).length - 2 < (m.buf.set (m.p + l.1.length) NUL).length := by
    rw [List.length_set]
    omega
  have hpos : m.p + (Part.line l).length - 1 + 1 = m.p + (Part.line l).length := by omega
  rw [atField]
  simp only [bind, Except.bind, Machine.e, get_header_line hl h, if_true, hpos, clear_of_lt hlt]

private theorem ne_e_of_length (h : m.buf.drop m.p = s) (hs : 2 ≤ s.length) : m.p ≠ m.e := by
  have hlen := congrArg List.length h
  rw [List.length_drop] at hlen
  rw [Machine.e]
  omega

private theorem running_of_drop {a b : UInt8} (h : m.buf.drop m.p = a :: b :: s) :
    (m.cap || decide (m.p ≠ m.e)) = true := by
  rw [decide_eq_true (ne_e_of_length h (by simp)), Bool.or_true]

end

section

variable (hash : Bytes → UInt64) (boundary : Bytes) {m : Machine} {part : Part} {s : Bytes}

private theorem step_header (hrun : (m.cap || decide (m.p ≠ m.e)) = true)
    (hnext : m.next_state = state_header) : step hash boundary m = atHeader m := by
  rw [step, if_pos hrun, hnext]

/-- The header lines are passed over. -/
private theorem headers_run {hs : List (Bytes × Bytes)} (hhs : ∀ l ∈ hs, IsLine l)
    (hnext : m.next_state = state_header) (hopened : Opened part m m.p)
    (h : m.buf.drop m.p = hs.flatMap Part.line ++ s) :
    ∃ m', Reaches (step hash boundary) m m' ∧ m'.next_state = state_header ∧ Opened part m' m'.p ∧
      m'.buf.drop m'.p = s ∧ SameMaps m m' := by
  induction hs generalizing m with
  | nil => exact ⟨m, .refl m, hnext, hopened, h, rfl, rfl⟩
  | cons l hs ih =>
      obtain ⟨hl, hhs⟩ := List.forall_mem_cons.mp hhs
      rw [List.flatMap_cons, List.append_assoc] at h
      -- a line has two bytes to look at, and the first is no CR
      obtain ⟨c, d, r, hcd, hc⟩ : ∃ c d r, Part.line l ++ (hs.flatMap Part.line ++ s) = c :: d :: r ∧
          c ≠ CR := by
        have hcr := hl.1.2.1
        cases hfst : l.1 with
        | nil => exact ⟨COLON, SP, _, by rw [Part.line, hfst]; rfl, by decide⟩
        | cons c t =>
            rw [hfst] at hcr
            have hc := (not_or.mp (List.mem_cons.not.mp hcr)).1
            cases t with
            | nil => exact ⟨c, COLON, _, by rw [Part.line, hfst]; rfl, Ne.symm hc⟩
            | cons d t => exact ⟨c, d, _, by rw [Part.line, hfst]; rfl, Ne.symm hc⟩
      have hhead := h.trans hcd
      -- the name and the value end in a NUL each
      have hfield : atField { m with state := state_header } = _ := atField_text hl h
      have hstep : step hash boundary m = .ok (.goon { m with
          buf := (m.buf.set (m.p + l.1.length) NUL).set (m.p + (Part.line l).length - 2) NUL
          p := m.p + (Part.line l).length, state := state_header }) := by
        rw [step_header hash boundary (running_of_drop hhead) hnext]
        simp only [atHeader, bind, Except.bind, load_of_drop hhead]
        rw [if_neg hc]
        exact hfield
      have hlen : l.1.length + 4 ≤ (Part.line l).length := by
        simp only [Part.line, List.length_append, List.length_cons]
        omega
      obtain ⟨m', hreach, hnext', hopened', hdrop', hmaps⟩ := ih hhs
        (m := { m with
          buf := (m.buf.set (m.p + l.1.length) NUL).set (m.p + (Part.line l).length - 2) NUL
          p := m.p + (Part.line l).length, state := state_header }) hnext
        (hopened.kept rfl rfl rfl fun q t hq =>
          ((hq.set (by omega) NUL).set (by omega) NUL).mono (Nat.le_add_right _ _))
        (by
          show (List.set _ _ _).drop (m.p + (Part.line l).length) = _
          rw [drop_set_front (by omega), drop_set_front (by omega), drop_add h])
      exact ⟨m', .head hstep hreach, hnext', hopened', hdrop', hmaps⟩

/-- The blank line is passed over. -/
private theorem blank_step (hnext : m.next_state = state_header)
    (h : m.buf.drop m.p = CR :: LF :: s) : step hash boundary m = .ok (.goon { m with
      state := state_header, p := m.p + 2, data := some (m.p + 2), next_state := state_data }) := by
  have hbehind : m.buf.drop (m.p + 1) = LF :: s := drop_add (t := [CR]) h
  rw [step, if_pos (running_of_drop h), hnext]
  simp only [atHeader, bind, Except.bind, load_of_drop h, if_true, load_of_drop hbehind]

/-! ## The data -/

private theorem data_step (hnext : m.next_state = state_data) {a b : UInt8}
    (h : m.buf.drop m.p = a :: b :: s) : step hash boundary m = .ok (.goon { m with
      state := state_data, dend := some m.p, p := m.p + 1, next_state := state_is_boundary }) := by
  rw [step, if_pos (running_of_drop h), hnext]

private theorem other_step (hnext : m.next_state = state_is_boundary) {a b : UInt8} (ha : a ≠ DASH)
    (h : m.buf.drop m.p = a :: b :: s) :
    step hash boundary m = .ok (.goon { m with next_state := m.state }) := by
  rw [step, if_pos (running_of_drop h), hnext]
  simp only [isBoundary, bind, Except.bind, load_of_drop h, if_neg ha]

private theorem dash_step (hnext : m.next_state = state_is_boundary) {b : UInt8} (hb : b ≠ DASH)
    (h : m.buf.drop m.p = DASH :: b :: s) :
    step hash boundary m = .ok (.goon { m with p := m.p + 1, next_state := m.state }) := by
  have hbehind : m.buf.drop (m.p + 1) = b :: s := drop_add (t := [DASH]) h
  rw [step, if_pos (running_of_drop h), hnext]
  simp only [isBoundary, bind, Except.bind, load_of_drop h, if_true, load_of_drop hbehind, if_neg hb]

/-- The machine behind two dashes. -/
private def dashed (m : Machine) : Machine :=
  { m with p := m.p + 2, state := state_is_boundary, next_state := state_boundary }

private theorem dashes_step (hnext : m.next_state = state_is_boundary ∨ m.next_state = state_begin)
    (h : m.buf.drop m.p = DASH :: DASH :: s) : step hash boundary m = .ok (.goon (dashed m)) := by
  have hbehind : m.buf.drop (m.p + 1) = DASH :: s := drop_add (t := [DASH]) h
  rw [step, if_pos (running_of_drop h)]
  rcases hnext with hnext | hnext
  · rw [hnext]
    simp only [isBoundary, bind, Except.bind, load_of_drop h, if_true, load_of_drop hbehind, dashed]
  · rw [hnext]
    simp only [isBoundary, bind, Except.bind, load_of_drop h, if_true, load_of_drop hbehind, dashed]

/-- The machine behind so many bytes of data. -/
def readTo (m : Machine) (n : Nat) : Machine :=
  { m with
    state := state_data, dend := some (m.p + n - 1), p := m.p + n, next_state := state_is_boundary }

/-- The machine behind the first byte of data, and so many bytes further. -/
private def skipped (m : Machine) (k : Nat) : Machine :=
  { m with state := state_data, dend := some m.p, p := m.p + 1 + k, next_state := state_data }

private theorem readTo_skipped (m : Machine) (k n : Nat) :
    readTo (skipped m k) n = readTo m (n + k + 1) := by
  have hp : (skipped m k).p + n = m.p + (n + k + 1) := by
    show m.p + 1 + k + n = _
    omega
  rw [readTo, readTo, hp]
  rfl

/-- A byte of data, and a dash behind it that no other follows, are read. -/
private theorem skip_run {a b c : UInt8} (hnext : m.next_state = state_data)
    (h : m.buf.drop m.p = a :: b :: c :: s) (hdash : b = DASH → c ≠ DASH) :
    Reaches (step hash boundary) m (skipped m (if b = DASH then 1 else 0)) := by
  have hfirst := data_step hash boundary hnext h
  have hbehind : m.buf.drop (m.p + 1) = b :: c :: s := drop_add (t := [a]) h
  refine .head hfirst (.single ?_)
  split_ifs with hb
  · subst hb
    exact dash_step hash boundary (m := { m with
      state := state_data, dend := some m.p, p := m.p + 1, next_state := state_is_boundary })
      rfl (hdash rfl) hbehind
  · exact other_step hash boundary (m := { m with
      state := state_data, dend := some m.p, p := m.p + 1, next_state := state_is_boundary })
      rfl hb hbehind

/-- Data is read up to the first two dashes behind its first byte. -/
private theorem data_run {n : Nat} {t : Bytes} (hn : t.length ≤ n) (hne : t ≠ [])
    (hnot : ¬ [DASH, DASH] <:+: t.tail ++ [DASH]) (hnext : m.next_state = state_data)
    (h : m.buf.drop m.p = t ++ DASH :: DASH :: s) :
    Reaches (step hash boundary) m (readTo m t.length) := by
  induction n generalizing t m with
  | zero => exact absurd (List.eq_nil_of_length_eq_zero (Nat.le_zero.mp hn)) hne
  | succ n ih =>
      obtain ⟨c, t, rfl⟩ := List.exists_cons_of_ne_nil hne
      rw [List.tail_cons] at hnot
      rw [List.length_cons] at hn
      cases t with
      | nil => exact .single (data_step hash boundary hnext h)
      | cons d t =>
          have hrest : ¬ [DASH, DASH] <:+: t ++ [DASH] := fun hin =>
            hnot (List.infix_cons_iff.mpr (.inr hin))
          rw [List.length_cons] at hn
          by_cases hd : d = DASH
          · subst hd
            cases t with
            | nil => exact absurd List.infix_rfl hnot
            | cons e t =>
                have he : e ≠ DASH := by
                  rintro rfl
                  exact hnot ⟨[], t ++ [DASH], rfl⟩
                have hskip := skip_run hash boundary hnext h fun _ => he
                rw [if_pos rfl] at hskip
                have hrun := ih (m := skipped m 1) (t := e :: t) (by omega) (List.cons_ne_nil e t)
                  (fun hin => hrest (List.infix_cons_iff.mpr (.inr hin))) rfl
                  (drop_add (t := [c, DASH]) h)
                rw [readTo_skipped] at hrun
                exact hskip.trans hrun
          · obtain ⟨b, r, hbr⟩ : ∃ b r, t ++ DASH :: DASH :: s = b :: r :=
              List.exists_cons_of_ne_nil (List.append_ne_nil_of_right_ne_nil t (List.cons_ne_nil _ _))
            have hskip := skip_run hash boundary hnext
              (h.trans (congrArg (c :: d :: ·) hbr)) fun heq => absurd heq hd
            rw [if_neg hd] at hskip
            have hrun := ih (m := skipped m 0) (t := d :: t) (by rw [List.length_cons]; omega)
              (List.cons_ne_nil d t) hrest rfl (drop_add (t := [c]) h)
            rw [readTo_skipped] at hrun
            exact hskip.trans hrun

end

/-! ## The delimiter -/

/-- What is done with a part that is over. -/
def Part.store (hash : Bytes → UInt64) (maps : CaseMap Bytes × CaseMap UploadedFile) (part : Part) :
    CaseMap Bytes × CaseMap UploadedFile :=
  match part.filename with
  | none => (maps.1.emplace hash part.name part.data, maps.2)
  | some f => (maps.1, maps.2.emplace hash part.name (part.uploaded f))

/-- The state behind a delimiter. -/
def endState (el : Bool) : PState := if el then state_content else state_end

/-- The machine behind a delimiter of that length, in a part that is to be stored, or in none. -/
def passed (m : Machine) (n : Nat) (el : Bool) : Machine :=
  let m := { m with p := m.p + n + 2, state := endState el }
  if m.filename.isSome then { m with next_state := state_save_file, cap := true }
  else if m.name.isSome then { m with next_state := state_save_data, cap := true }
  else { m with next_state := endState el }

section

variable (hash : Bytes → UInt64) {boundary : Bytes} {m : Machine} {part : Part} {s : Bytes} {d : Nat}

private theorem boundary_step (hnul : NUL ∉ boundary) (hnext : m.next_state = state_boundary) {el : Bool}
    (h : m.buf.drop m.p = boundary ++
      ((if el then [CR, LF] else [DASH, DASH]) ++ s)) (hrun : m.p ≠ m.e) :
    step hash boundary m = .ok (.goon (passed m boundary.length el)) := by
  have hat := drop_add h
  have hcmp : cmp id boundary.length (m.buf.drop m.p) boundary = .ok true := by
    rw [h, cmp_self _ _ hnul]
  rw [step, if_pos (by rw [decide_eq_true hrun, Bool.or_true]), hnext]
  cases el with
  | true =>
      have hfirst : m.buf.drop (m.p + boundary.length) = CR :: LF :: s := hat
      have hsecond : m.buf.drop (m.p + boundary.length + 1) = LF :: s := drop_add (t := [CR]) hfirst
      have hline : pair m.buf (m.p + boundary.length) CR LF = .ok true := by
        rw [pair]
        simp only [bind, Except.bind, load_of_drop hfirst, if_true, load_of_drop hsecond, decide_true]
      have hdash : pair m.buf (m.p + boundary.length) DASH DASH = .ok false := by
        rw [pair]
        simp only [bind, Except.bind, load_of_drop hfirst, if_neg (by decide : CR ≠ DASH)]
      simp only [atBoundary, bind, Except.bind, hcmp, if_true, hline, hdash, Bool.or_false]
      rw [passed]
      simp only [endState, if_true]
      split_ifs <;> rfl
  | false =>
      have hfirst : m.buf.drop (m.p + boundary.length) = DASH :: DASH :: s := hat
      have hsecond : m.buf.drop (m.p + boundary.length + 1) = DASH :: s := drop_add (t := [DASH]) hfirst
      have hline : pair m.buf (m.p + boundary.length) CR LF = .ok false := by
        rw [pair]
        simp only [bind, Except.bind, load_of_drop hfirst, if_neg (by decide : DASH ≠ CR)]
      have hdash : pair m.buf (m.p + boundary.length) DASH DASH = .ok true := by
        rw [pair]
        simp only [bind, Except.bind, load_of_drop hfirst, if_true, load_of_drop hsecond, decide_true]
      simp only [atBoundary, bind, Except.bind, hcmp, if_true, hline, hdash, Bool.false_or,
        Bool.false_eq_true, if_false]
      rw [passed]
      simp only [endState, Bool.false_eq_true, if_false]
      split_ifs <;> rfl

/-- Two dashes that are not in front of the boundary are an error. -/
private theorem wrong_step (hnul : NUL ∉ boundary) (hcr : CR ∉ boundary)
    (hnext : m.next_state = state_boundary) (hmem : CR ∈ m.buf.drop m.p)
    (h : ¬ boundary <+: m.buf.drop m.p) (hrun : m.p ≠ m.e) : step hash boundary m = .ok (.goon { m with
      state := state_is_boundary, next_state := state_error }) := by
  rw [step, if_pos (by rw [decide_eq_true hrun, Bool.or_true]), hnext]
  simp only [atBoundary, bind, Except.bind, cmp_other hnul hcr hmem h, Bool.false_eq_true, if_false]

/-- What is known of the data of a part that is over: where it begins and where it ends. -/
structure Ended (part : Part) (m : Machine) (d : Nat) : Prop where
  opened : ∃ q, m.name = some q ∧ Stored m.buf q part.name d
  filename : match part.filename with
    | none => m.filename = none
    | some f => ∃ q, m.filename = some q ∧ Stored m.buf q f d
  data : m.data = some d
  dend : m.dend = some (d + part.data.length + 1)
  drop : ∃ r, m.buf.drop d = part.data ++ CR :: LF :: r
  before : d + part.data.length + 2 ≤ m.p

private theorem step_save_file (hcap : m.cap = true) (hnext : m.next_state = state_save_file) :
    step hash boundary m = saveFile hash m := by
  rw [step, hcap, Bool.true_or, if_pos rfl, hnext]

private theorem step_save_data (hcap : m.cap = true) (hnext : m.next_state = state_save_data) :
    step hash boundary m = saveData hash m := by
  rw [step, hcap, Bool.true_or, if_pos rfl, hnext]

/-- A part that is over is stored. -/
private theorem save_run (boundary : Bytes) (hwritten : NUL ∉ part.name ∧ ∀ f ∈ part.filename, NUL ∉ f)
    (hended : Ended part m d) (hlen : m.buf.length < 2 ^ 32) (n : Nat) (el : Bool) :
    ∃ m', step hash boundary (passed m n el) = .ok (.goon m') ∧ m'.cap = false ∧
      m'.next_state = endState el ∧ m'.p = m.p + n + 2 ∧ m'.buf.drop m'.p = m.buf.drop (m.p + n + 2) ∧
      m'.buf.length = m.buf.length ∧ (m'.form, m'.files) = part.store hash (m.form, m.files) := by
  obtain ⟨q, hname, hstored⟩ := hended.opened
  obtain ⟨r, hdrop⟩ := hended.drop
  have hbefore := hended.before
  have hat := drop_add hdrop
  have hsize := length_of_drop hat
  rw [List.length_cons] at hsize
  have hlf : m.buf.drop d = (part.data ++ [CR]) ++ LF :: r := by
    rw [hdrop, List.append_assoc, List.singleton_append]
  -- the NUL is written at the end of the data; for a file it is one byte further on
  cases hf : part.filename with
  | none =>
      have hfile := hended.filename
      rw [hf] at hfile
      have hpassed : passed m n el = { m with
          p := m.p + n + 2, state := endState el, next_state := state_save_data, cap := true } := by
        rw [passed, hfile, hname]
        rfl
      have hset := drop_set_behind (d := NUL) hdrop
      have hbefore' : before (d + part.data.length + 1) = .ok (d + part.data.length) :=
        if_neg (Nat.succ_ne_zero _)
      have hclear : clear m.buf (d + part.data.length) =
          .ok (m.buf.set (d + part.data.length) NUL) := clear_of_lt (by omega)
      have hstring := (hstored.set (i := d + part.data.length) (by omega) NUL).string_eq hwritten.1
      -- the difference of the two pointers, in 32 bits for a field
      have hcount : (d + part.data.length + 2 ^ 64 - d) % 2 ^ 32 = part.data.length := by omega
      have htake : ((m.buf.set (d + part.data.length) NUL).drop d).take part.data.length =
          part.data := by
        rw [hset, List.take_left]
      rw [hpassed]
      refine ⟨{ m with
          buf := m.buf.set (d + part.data.length) NUL, p := m.p + n + 2, state := endState el
          form := m.form.emplace hash part.name part.data, name := none, data := none, dend := none
          next_state := endState el, cap := false }, ?_, rfl, rfl, rfl, ?_, ?_, ?_⟩
      · rw [step_save_data hash rfl rfl]
        simp only [saveData, bind, Except.bind, hended.dend, deref, hbefore', hclear, hname, hstring,
          hended.data, hcount, htake]
      · exact drop_set_front (p := m.p + n + 2) (by omega)
      · exact List.length_set
      · rw [Part.store, hf]
  | some f =>
      have hfile := hended.filename
      rw [hf] at hfile
      obtain ⟨i, hi, hfstored⟩ := hfile
      have hpassed : passed m n el = { m with
          p := m.p + n + 2, state := endState el, next_state := state_save_file, cap := true } := by
        rw [passed, hi]
        rfl
      have hset := drop_set_behind (d := NUL) hlf
      rw [List.length_append, List.length_singleton, ← Nat.add_assoc] at hset
      have hbefore' : before (d + part.data.length + 1) = .ok (d + part.data.length) :=
        if_neg (Nat.succ_ne_zero _)
      have hclear : clear m.buf (d + part.data.length + 1) =
          .ok (m.buf.set (d + part.data.length + 1) NUL) := clear_of_lt (by omega)
      have hstring := (hstored.set (i := d + part.data.length + 1) (by omega) NUL).string_eq hwritten.1
      have hfstring := (hfstored.set (i := d + part.data.length + 1) (by omega) NUL).string_eq
        (hwritten.2 f hf)
      have hcount : (d + part.data.length + 2 ^ 64 - d) % 2 ^ 64 = part.data.length := by omega
      have htake : ((m.buf.set (d + part.data.length + 1) NUL).drop d).take part.data.length =
          part.data := by
        rw [hset, List.append_assoc, List.take_left]
      rw [hpassed]
      refine ⟨{ m with
          buf := m.buf.set (d + part.data.length + 1) NUL, p := m.p + n + 2, state := endState el
          files := m.files.emplace hash part.name (part.uploaded f), filename := none, data := none
          dend := none, next_state := endState el, cap := false }, ?_, rfl, rfl, rfl, ?_, ?_, ?_⟩
      · rw [step_save_file hash rfl rfl]
        simp only [saveFile, bind, Except.bind, hended.dend, deref, hbefore', hclear, hi, hname,
          hstring, hfstring, hended.data, hcount, htake]
        rfl
      · exact drop_set_front (p := m.p + n + 2) (by omega)
      · exact List.length_set
      · rw [Part.store, hf]

/-! ## A part -/

/-- The first two dashes. -/
private theorem first_dashes {x : Bytes} (h : [DASH, DASH] <:+: x) : ∃ u v,
    x = u ++ DASH :: DASH :: v ∧ ¬ [DASH, DASH] <:+: u ++ [DASH] := by
  induction x with
  | nil => exact absurd (List.infix_nil.mp h) (List.cons_ne_nil _ _)
  | cons a x ih =>
      by_cases hpre : [DASH, DASH] <+: a :: x
      · obtain ⟨v, hv⟩ := hpre
        exact ⟨[], v, hv.symm, fun hin => absurd hin.length_le (by decide)⟩
      · obtain ⟨u, v, hx, hnot⟩ := ih ((List.infix_cons_iff.mp h).resolve_left hpre)
        refine ⟨a :: u, v, by rw [hx, List.cons_append], fun hin => ?_⟩
        rcases List.infix_cons_iff.mp hin with hp | hin
        · -- the dash behind would be the first of two in the list
          obtain ⟨ha, hp⟩ := List.cons_prefix_cons.mp hp
          apply hpre
          rw [← ha]
          refine List.cons_prefix_cons.mpr ⟨rfl, ?_⟩
          rw [hx]
          exact hp.trans ((List.prefix_append_right_inj u).mpr ⟨DASH :: v, rfl⟩)
        · exact hnot hin

/-- Behind two dashes of a part there is no boundary. -/
private theorem not_boundary {u v r : Bytes} (hcr : CR ∉ boundary)
    (h : ¬ delimiter boundary <:+: u ++ DASH :: DASH :: v) : ¬ boundary <+: v ++ CR :: r := by
  intro hpre
  have hv : v ++ [CR] <+: v ++ CR :: r := (List.prefix_append_right_inj v).mpr ⟨r, rfl⟩
  rcases List.prefix_or_prefix_of_prefix hpre hv with hb | hb
  · rcases List.prefix_concat_iff.mp hb with heq | hin
    · exact hcr (heq ▸ List.mem_append_right v (List.mem_singleton_self CR))
    · obtain ⟨w, rfl⟩ := hin
      exact h ⟨u, w, by simp [delimiter]⟩
  · exact hcr (hb.subset (List.mem_append_right v (List.mem_singleton_self CR)))

/-- Data without two dashes behind its first byte has none with its line end and a dash. -/
private theorem not_dashes_line {x : Bytes} (h : ¬ [DASH, DASH] <:+: x) :
    ¬ [DASH, DASH] <:+: x ++ [CR, LF, DASH] := by
  induction x with
  | nil => decide
  | cons a x ih =>
      have hx : ¬ [DASH, DASH] <:+: x := fun hin => h (List.infix_cons_iff.mpr (.inr hin))
      intro hin
      rcases List.infix_cons_iff.mp hin with hp | hin
      · obtain ⟨ha, hp⟩ := List.cons_prefix_cons.mp hp
        cases x with
        | nil => exact absurd (List.cons_prefix_cons.mp hp).1 (by decide)
        | cons b x =>
            have hb := (List.cons_prefix_cons.mp hp).1
            exact h ⟨[], x, by rw [← ha, ← hb]; rfl⟩
      · exact ih hx hin

/-- What is behind the delimiter in front of these parts. -/
def rest (boundary : Bytes) (ps : List Part) (tail : Bytes) : Bytes :=
  match ps with
  | [] => tail
  | p :: ps => p.behind ++ text boundary ps tail

private theorem text_eq (ps : List Part) (tail : Bytes) : text boundary ps tail =
    DASH :: DASH :: (boundary ++ ((if !ps.isEmpty then [CR, LF] else [DASH, DASH]) ++
      rest boundary ps tail)) := by
  cases ps with
  | nil => simp [text, delimiter, rest]
  | cons p ps => simp [text, delimiter, rest]

/-- The machine is behind the delimiter in front of these parts. -/
structure After (boundary : Bytes) (ps : List Part) (tail : Bytes) (m : Machine) : Prop where
  cap : m.cap = false
  next : m.next_state = endState !ps.isEmpty
  drop : m.buf.drop m.p = rest boundary ps tail

section

variable {ps : List Part} {tail : Bytes}

/-- The lines of a part are read. -/
private theorem opened_run (hwritten : part.Written boundary) (h : After boundary (part :: ps) tail m) :
    ∃ m', Reaches (step hash boundary) m m' ∧ m'.next_state = state_data ∧ Opened part m' m'.p ∧
      m'.data = some m'.p ∧ m'.buf.drop m'.p = part.data ++ CR :: LF :: text boundary ps tail ∧
      SameMaps m m' := by
  have hdrop : m.buf.drop m.p = Part.line (str "Content-Disposition", part.disposition) ++
      (part.headers.flatMap Part.line ++
        (CR :: LF :: (part.data ++ CR :: LF :: text boundary ps tail))) := by
    rw [h.drop, rest, Part.behind]
    simp only [List.append_assoc, List.cons_append, List.nil_append]
  obtain ⟨m₁, hcontent, hnext₁, hopened₁, hdrop₁, hmaps₁⟩ :=
    atContent_text hwritten.name hwritten.filename h.cap hdrop
  have hfirst : step hash boundary m = .ok (.goon m₁) := by
    have hrun : (m.cap || decide (m.p ≠ m.e)) = true := running_of_drop hdrop
    rw [step, if_pos hrun, h.next]
    exact hcontent
  obtain ⟨m₂, hreach₂, hnext₂, hopened₂, hdrop₂, hmaps₂⟩ :=
    headers_run hash boundary hwritten.headers hnext₁ hopened₁ hdrop₁
  have hblank := blank_step hash boundary hnext₂ hdrop₂
  refine ⟨_, .head hfirst (hreach₂.trans (.single hblank)), rfl, ?_, rfl, ?_, ?_⟩
  · exact hopened₂.kept rfl rfl rfl fun q t hq => hq.mono (Nat.le_add_right _ 2)
  · exact drop_add (t := [CR, LF]) hdrop₂
  · exact ⟨hmaps₂.1.trans hmaps₁.1, hmaps₂.2.trans hmaps₁.2⟩

/-- A part is stored, and the next is in front of the machine. -/
private theorem part_run (hnul : NUL ∉ boundary) (hwritten : part.Written boundary)
    (hdashed : ¬ part.Dashed)
    (hlen : ∀ m', Reaches (step hash boundary) m m' → m'.buf.length < 2 ^ 32)
    (h : After boundary (part :: ps) tail m) : ∃ m', Reaches (step hash boundary) m m' ∧
      After boundary ps tail m' ∧ (m'.form, m'.files) = part.store hash (m.form, m.files) := by
  -- the headers of the part and the empty line
  obtain ⟨m₁, hreach₁, hnext₁, hopened₁, hdata₁, hdrop₁, hmaps₁⟩ :=
    opened_run hash hwritten h
  rw [text_eq] at hdrop₁
  have htext : m₁.buf.drop m₁.p = (part.data ++ [CR, LF]) ++ DASH :: DASH :: (boundary ++
      ((if !ps.isEmpty then [CR, LF] else [DASH, DASH]) ++ rest boundary ps tail)) := by
    rw [hdrop₁]
    simp only [List.append_assoc, List.cons_append, List.nil_append]
  have hnot : ¬ [DASH, DASH] <:+: (part.data ++ [CR, LF]).tail ++ [DASH] := by
    cases hd : part.data with
    | nil => decide
    | cons c x =>
        have hx : ¬ [DASH, DASH] <:+: x := by
          have := hdashed
          rw [Part.Dashed, hd, List.tail_cons] at this
          exact this
        have := not_dashes_line hx
        simpa using this
  -- the data, up to the two dashes in front of the boundary
  have hreach₂ := data_run hash boundary (Nat.le_refl _)
    (List.append_ne_nil_of_right_ne_nil part.data (List.cons_ne_nil CR [LF])) hnot hnext₁ htext
  have hdrop₂ := drop_add htext
  have hdashes := dashes_step hash boundary
    (m := readTo m₁ (part.data ++ [CR, LF]).length) (.inl rfl) hdrop₂
  have hdrop₃ : m₁.buf.drop (m₁.p + (part.data ++ [CR, LF]).length + 2) = boundary ++
      ((if !ps.isEmpty then [CR, LF] else [DASH, DASH]) ++ rest boundary ps tail) :=
    drop_add (t := [DASH, DASH]) hdrop₂
  have hmark : (if !ps.isEmpty then [CR, LF] else [DASH, DASH]).length = 2 := by
    split_ifs <;> rfl
  obtain ⟨m₃, hm₃⟩ : ∃ m₃, m₃ = dashed (readTo m₁ (part.data ++ [CR, LF]).length) := ⟨_, rfl⟩
  rw [← hm₃] at hdashes
  have hbuf₃ : m₃.buf = m₁.buf := by rw [hm₃]; rfl
  have hp₃ : m₃.p = m₁.p + (part.data ++ [CR, LF]).length + 2 := by rw [hm₃]; rfl
  have hreach₃ : Reaches (step hash boundary) m m₃ :=
    hreach₁.trans (hreach₂.trans (.single hdashes))
  rw [← hbuf₃, ← hp₃] at hdrop₃
  -- the boundary, and what is behind it says whether there is another part
  have hlast := boundary_step hash hnul (by rw [hm₃, dashed]) hdrop₃
    (ne_e_of_length hdrop₃ (by
      rw [List.length_append, List.length_append, hmark]
      omega))
  -- the pointers that were kept on the way are those of this part
  have hended : Ended part m₃ m₁.p := by
    refine ⟨?_, ?_, ?_, ?_, ⟨_, hbuf₃ ▸ hdrop₁⟩, ?_⟩
    · rw [hbuf₃, hm₃]
      exact hopened₁.name
    · rw [hbuf₃, hm₃]
      exact hopened₁.filename
    · rw [hm₃]
      exact hdata₁
    · rw [hm₃]
      show some (m₁.p + (part.data ++ [CR, LF]).length - 1) = _
      rw [List.length_append]
      rfl
    · rw [hp₃, List.length_append]
      omega
  obtain ⟨m', hsave, hcap, hnext', hp', hdrop', -, hmaps'⟩ := save_run hash boundary
    ⟨hwritten.name.2.2, fun f hf => (hwritten.filename f hf).2.2⟩ hended (hlen m₃ hreach₃)
    boundary.length !ps.isEmpty
  have hmaps₃ : m₃.form = m.form ∧ m₃.files = m.files := by
    rw [hm₃]
    exact hmaps₁
  refine ⟨m', hreach₃.trans (.head hlast (.single hsave)), ⟨hcap, hnext', ?_⟩, ?_⟩
  · have hbehind := drop_add (drop_add hdrop₃)
    rw [hmark] at hbehind
    exact hdrop'.trans hbehind
  · rw [hmaps', hmaps₃.1, hmaps₃.2]

/-- A part with two dashes behind its first byte is an error. -/
private theorem dashed_run (hnul : NUL ∉ boundary) (hcr : CR ∉ boundary)
    (hwritten : part.Written boundary) (hdashed : part.Dashed)
    (h : After boundary (part :: ps) tail m) : ∃ m', Reaches (step hash boundary) m m' ∧
      m'.next_state = state_error ∧ SameMaps m m' := by
  obtain ⟨m₁, hreach₁, hnext₁, hopened₁, -, hdrop₁, hmaps₁⟩ := opened_run hash hwritten h
  obtain ⟨u, v, huv, hnot⟩ := first_dashes hdashed
  obtain ⟨c, x, hd⟩ : ∃ c x, part.data = c :: x := by
    refine List.exists_cons_of_ne_nil fun hnil => ?_
    rw [hnil] at huv
    exact List.append_ne_nil_of_right_ne_nil u (List.cons_ne_nil _ _) huv.symm
  rw [hd, List.tail_cons] at huv
  have htext : m₁.buf.drop m₁.p = (c :: u) ++ DASH :: DASH ::
      (v ++ CR :: LF :: text boundary ps tail) := by
    rw [hdrop₁, hd, huv]
    simp only [List.append_assoc, List.cons_append]
  have hreach₂ := data_run hash boundary (Nat.le_refl _)
    (List.cons_ne_nil c u) hnot hnext₁ htext
  have hdrop₂ := drop_add htext
  have hdashes := dashes_step hash boundary
    (m := readTo m₁ (c :: u).length) (.inl rfl) hdrop₂
  have hdrop₃ : m₁.buf.drop (m₁.p + (c :: u).length + 2) = v ++ CR :: LF :: text boundary ps tail :=
    drop_add (t := [DASH, DASH]) hdrop₂
  have hdelimiter : ¬ delimiter boundary <:+: (c :: u) ++ DASH :: DASH :: v := by
    rw [List.cons_append, ← huv, ← hd]
    exact hwritten.data
  obtain ⟨m₃, hm₃⟩ : ∃ m₃, m₃ = dashed (readTo m₁ (c :: u).length) := ⟨_, rfl⟩
  rw [← hm₃] at hdashes
  have hdrop₃' : m₃.buf.drop m₃.p = v ++ CR :: LF :: text boundary ps tail := by
    rw [hm₃]
    exact hdrop₃
  have hwrong := wrong_step hash hnul hcr (by rw [hm₃, dashed])
    (by rw [hdrop₃']; exact List.mem_append_right v List.mem_cons_self)
    (by rw [hdrop₃']; exact not_boundary hcr hdelimiter)
    (ne_e_of_length hdrop₃' (by
      rw [List.length_append, List.length_cons, List.length_cons]
      omega))
  refine ⟨{ m₃ with state := state_is_boundary, next_state := state_error },
    hreach₁.trans (hreach₂.trans (.head hdashes (.single hwrong))), rfl, ?_⟩
  show m₃.form = m.form ∧ m₃.files = m.files
  rw [hm₃]
  exact hmaps₁

end

/-! ## The whole form -/

/-- The parts that are stored: those in front of the first that is taken for an error. -/
def stored (ps : List Part) : List Part := ps.takeWhile fun p => !decide p.Dashed

/-- The maps after the parts. -/
def storeAll (hash : Bytes → UInt64) (ps : List Part) (maps : CaseMap Bytes × CaseMap UploadedFile) :
    CaseMap Bytes × CaseMap UploadedFile := ps.foldl (Part.store hash) maps

/-- From behind a delimiter on, the parts are stored up to the first that is taken for an error. -/
private theorem after_run (hnul : NUL ∉ boundary) (hcr : CR ∉ boundary) {behind : UInt8}
    {ps : List Part} {tail : Bytes} (hps : ∀ p ∈ ps, p.Written boundary)
    (hlen : ∀ m', Reaches (step hash boundary) m m' → m'.buf.length < 2 ^ 32)
    (h : After boundary ps (tail ++ [behind]) m) : ∃ m', Reaches (step hash boundary) m m' ∧
      step hash boundary m' = .ok (.done (decide (stored ps = ps ∧ tail ≠ []),
        storeAll hash (stored ps) (m.form, m.files))) := by
  induction ps generalizing m with
  | nil =>
      refine ⟨m, .refl m, ?_⟩
      have hdrop : m.buf.drop m.p = tail ++ [behind] := h.drop
      have hnext : m.next_state = state_end := h.next
      rw [step, h.cap, Bool.false_or]
      cases tail with
      | nil =>
          have hsize := length_of_drop hdrop
          have he : m.p = m.e := by
            rw [Machine.e, hsize, List.length_nil]
            rfl
          rw [if_neg (by simp [he])]
          rfl
      | cons a tail =>
          have hne : m.p ≠ m.e := ne_e_of_length hdrop (by simp)
          rw [if_pos (decide_eq_true hne), hnext]
          rfl
  | cons p ps ih =>
      obtain ⟨hp, hps⟩ := List.forall_mem_cons.mp hps
      by_cases hd : p.Dashed
      · obtain ⟨m', hreach, hnext, hform, hfiles⟩ := dashed_run hash hnul hcr hp hd h
        have hstored : stored (p :: ps) = [] := by
          rw [stored, List.takeWhile_cons, if_neg (by simp [hd])]
        refine ⟨m', hreach, ?_⟩
        rw [step_failing hash boundary (.inr hnext), hstored, hform, hfiles,
          decide_eq_false fun hall => List.cons_ne_nil p ps hall.1.symm]
        rfl
      · obtain ⟨m₁, hreach, hafter, hmaps⟩ := part_run hash hnul hp hd hlen h
        obtain ⟨m', hreach', hdone⟩ := ih hps (fun m' hm' => hlen m' (hreach.trans hm')) hafter
        have hstored : stored (p :: ps) = p :: stored ps := by
          rw [stored, List.takeWhile_cons, if_pos (by simp [hd]), ← stored]
        refine ⟨m', hreach.trans hreach', ?_⟩
        rw [hdone, hstored, hmaps]
        simp only [List.cons.injEq, true_and, storeAll, List.foldl_cons]

private theorem text_append (ps : List Part) (tail s : Bytes) :
    text boundary ps tail ++ s = text boundary ps (tail ++ s) := by
  induction ps with
  | nil => simp only [text, List.append_assoc, List.cons_append]
  | cons p ps ih => simp only [text, List.append_assoc, List.cons_append, ih]

private theorem storeAll_eq (ps : List Part) : storeAll hash ps ([], []) =
    (AssocMap.insertAll (Cookies.taken hash) (fields ps),
      AssocMap.insertAll (Cookies.taken hash) (uploads ps)) := by
  induction ps using List.reverseRecOn with
  | nil => rfl
  | append_singleton ps p ih =>
      have hstep : storeAll hash (ps ++ [p]) ([], []) =
          Part.store hash (storeAll hash ps ([], [])) p := by
        rw [storeAll, List.foldl_append]
        rfl
      rw [hstep, ih]
      cases hf : p.filename with
      | none =>
          have hfields : fields (ps ++ [p]) = fields ps ++ [(p.name, p.data)] := by
            simp [fields, hf]
          have huploads : uploads (ps ++ [p]) = uploads ps := by simp [uploads, hf]
          rw [hfields, huploads, AssocMap.insertAll_concat]
          simp only [Part.store, hf]
          rfl
      | some f =>
          have hfields : fields (ps ++ [p]) = fields ps := by simp [fields, hf]
          have huploads : uploads (ps ++ [p]) = uploads ps ++ [(p.name, p.uploaded f)] := by
            simp [uploads, hf]
          rw [hfields, huploads, AssocMap.insertAll_concat]
          simp only [Part.store, hf]
          rfl

private theorem length_of_reaches {body : Bytes} {behind : UInt8} {m' : Machine}
    (h : Reaches (step hash boundary) (start body behind) m') : m'.buf.length = body.length + 1 := by
  refine (h.invariant (P := fun m => Shape m ∧ m.buf.length = body.length + 1) ⟨trivial, ?_⟩ ?_).2
  · exact List.length_append
  · rintro s s' ⟨hshape, hlen⟩ hstep
    have hmoves := (step_moves hshape hstep).1
    exact ⟨hmoves.shape, hmoves.length.trans hlen⟩

/-- What the parser makes of a form. -/
theorem parse_text (hash : Bytes → UInt64) (hnul : NUL ∉ boundary) (hcr : CR ∉ boundary)
    {ps : List Part} (hps : ∀ p ∈ ps, p.Written boundary) {tail : Bytes}
    (hlen : (text boundary ps tail).length + 10 ≤ 2 ^ 32) (behind : UInt8) :
    parse_multipart_form hash boundary (text boundary ps tail) behind =
      .ok (decide (stored ps = ps ∧ tail ≠ []),
        AssocMap.insertAll (Cookies.taken hash) (fields (stored ps)),
        AssocMap.insertAll (Cookies.taken hash) (uploads (stored ps))) := by
  have hbuf : (start (text boundary ps tail) behind).buf = DASH :: DASH :: (boundary ++
      ((if !ps.isEmpty then [CR, LF] else [DASH, DASH]) ++ rest boundary ps (tail ++ [behind]))) := by
    rw [start, text_append, text_eq]
  have hdashes := dashes_step hash boundary
    (m := start (text boundary ps tail) behind) (.inr rfl) hbuf
  -- the two dashes and the boundary in front of the first part
  obtain ⟨m₁, hm₁⟩ : ∃ m₁, m₁ = dashed (start (text boundary ps tail) behind) := ⟨_, rfl⟩
  rw [← hm₁] at hdashes
  have hdrop₁ : m₁.buf.drop m₁.p = boundary ++
      ((if !ps.isEmpty then [CR, LF] else [DASH, DASH]) ++ rest boundary ps (tail ++ [behind])) := by
    rw [hm₁]
    exact drop_add (p := 0) (t := [DASH, DASH]) hbuf
  have hmark : (if !ps.isEmpty then [CR, LF] else [DASH, DASH]).length = 2 := by
    split_ifs <;> rfl
  have hboundary := boundary_step hash hnul (by rw [hm₁, dashed]) hdrop₁
    (ne_e_of_length hdrop₁ (by
      rw [List.length_append, List.length_append, hmark]
      omega))
  have hpassed : passed m₁ boundary.length (!ps.isEmpty) = { m₁ with
      p := m₁.p + boundary.length + 2, state := endState !ps.isEmpty
      next_state := endState !ps.isEmpty } := by
    rw [hm₁]
    rfl
  rw [hpassed] at hboundary
  -- the machine is where it is after every part
  have hafter : After boundary ps (tail ++ [behind]) { m₁ with
      p := m₁.p + boundary.length + 2, state := endState !ps.isEmpty
      next_state := endState !ps.isEmpty } := by
    refine ⟨by rw [hm₁]; rfl, rfl, ?_⟩
    have hbehind := drop_add (drop_add hdrop₁)
    rw [hmark] at hbehind
    exact hbehind
  have hreach₁ := (Reaches.head hdashes (.single hboundary))
  obtain ⟨m', hreach, hdone⟩ := after_run hash hnul hcr hps
    (fun m' hm' => by
      rw [length_of_reaches hash (hreach₁.trans hm')]
      omega) hafter
  obtain ⟨r, hr⟩ := Option.isSome_iff_exists.mp
    (parse_run hash boundary (text boundary ps tail) behind)
  -- one more turn ends it, with what the parts have stored
  have hlast : run (step hash boundary) 1 m' = some (.ok (decide (stored ps = ps ∧ tail ≠ []),
      storeAll hash (stored ps) ([], []))) := by
    rw [run, hdone, hm₁]
    rfl
  have hcap : (text boundary ps tail).length < capacity (text boundary ps tail).length := by
    rw [capacity]
    omega
  rw [parse_eq hr hcap, run_of_reaches (hreach₁.trans hreach) hr hlast, storeAll_eq]

end

/-! ## Forms that are recovered -/

/-- The form is accepted, and the maps hold its parts, under their names and with their contents. -/
def Recovers (hash : Bytes → UInt64) (boundary : Bytes) (ps : List Part) (tail : Bytes)
    (behind : UInt8) : Prop :=
  parse_multipart_form hash boundary (text boundary ps tail) behind = .ok (true, fields ps, uploads ps)

/-- No name is found under an earlier one. -/
def Distinct (hash : Bytes → UInt64) {α : Type} (entries : List (Bytes × α)) : Prop :=
  entries.Pairwise fun e e' => Cookies.taken hash e.1 e'.1 = false

instance (hash : Bytes → UInt64) {α : Type} (entries : List (Bytes × α)) :
    Decidable (Distinct hash entries) :=
  inferInstanceAs (Decidable (entries.Pairwise fun e e' => Cookies.taken hash e.1 e'.1 = false))

private theorem insertAll_eq_iff {hash : Bytes → UInt64} {α : Type} {entries : List (Bytes × α)} :
    AssocMap.insertAll (Cookies.taken hash) entries = entries ↔ Distinct hash entries := by
  constructor
  · intro h
    have hpairwise : (AssocMap.insertAll (Cookies.taken hash) entries).Pairwise
        fun e e' => Cookies.taken hash e.1 e'.1 = false := AssocMap.insertAll_pairwise entries
    rw [h] at hpairwise
    exact hpairwise
  · exact AssocMap.insertAll_of_pairwise

private theorem stored_eq_iff {ps : List Part} : stored ps = ps ↔ ∀ p ∈ ps, ¬ p.Dashed := by
  rw [stored, List.takeWhile_eq_self_iff]
  simp

/-- **A form is recovered exactly when something comes behind its last delimiter, no part has two
dashes behind its first byte, and the names of its fields, and of its files, are told apart.** -/
theorem recovers_iff (hash : Bytes → UInt64) (boundary : Bytes) (hnul : NUL ∉ boundary)
    (hcr : CR ∉ boundary) (ps : List Part) (hps : ∀ p ∈ ps, p.Written boundary) (tail : Bytes)
    (hlen : (text boundary ps tail).length + 10 ≤ 2 ^ 32) (behind : UInt8) :
    Recovers hash boundary ps tail behind ↔ tail ≠ [] ∧ (∀ p ∈ ps, ¬ p.Dashed) ∧
      Distinct hash (fields ps) ∧ Distinct hash (uploads ps) := by
  rw [Recovers, parse_text hash hnul hcr hps hlen behind, Except.ok.injEq, Prod.mk.injEq,
    Prod.mk.injEq, decide_eq_true_eq, stored_eq_iff]
  constructor
  · rintro ⟨⟨hdashed, htail⟩, hfields, huploads⟩
    rw [stored_eq_iff.mpr hdashed] at hfields huploads
    exact ⟨htail, hdashed, insertAll_eq_iff.mp hfields, insertAll_eq_iff.mp huploads⟩
  · rintro ⟨htail, hdashed, hfields, huploads⟩
    rw [stored_eq_iff.mpr hdashed]
    exact ⟨⟨hdashed, htail⟩, insertAll_eq_iff.mpr hfields, insertAll_eq_iff.mpr huploads⟩

/-- A field and a file, of which one has dashes in it. -/
theorem recovers_report : Recovers (fun _ => 0) (str "XX")
    [⟨str "title", none, [], str "a-b"⟩,
      ⟨str "doc", some (str "a.txt"), [(str "Content-Type", str "text/plain")], str "--"⟩]
    [CR, LF] NUL :=
  (recovers_iff (fun _ => 0) (str "XX") (by decide) (by decide)
    [⟨str "title", none, [], str "a-b"⟩,
      ⟨str "doc", some (str "a.txt"), [(str "Content-Type", str "text/plain")], str "--"⟩]
    (by
      intro p hp
      rcases List.mem_cons.mp hp with rfl | hp
      · exact ⟨by decide, by decide, by decide, by decide⟩
      · rw [List.mem_singleton.mp hp]
        exact ⟨by decide, by decide, by decide, by decide⟩)
    [CR, LF] (by decide +kernel) NUL).mpr ⟨by decide, by decide, by decide, by decide⟩

end Suil.Http.Multipart
