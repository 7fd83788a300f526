import Suil.Mustache.Parsing

set_option autoImplicit false

/-! # What parsing accepts

The other direction of `Parsing`: where a function of the parser succeeds there is a tag of the
reference with a valid name, and in front of such a tag it succeeds (`readTag_inv`,
`readTag_spelled`). Comments are a case of their own (`ignored_inv`): the parser stops at the first
closing brace, whatever is behind it. -/

namespace Suil.Mustache

variable {t : Bytes}

/-! ## Names -/

/-- A letter or an underscore and characters that names may have; `chs` has the ones besides letters
and digits. -/
def ValidName (chs name : Bytes) : Prop :=
  ∃ c s, name = c :: s ∧ (isAlpha c = true ∨ c = UNDERSCORE) ∧ ∀ d ∈ s, isNameChar chs d = true

/-- The characters that the names of a kind may have besides letters and digits. -/
def nameChars : ActionType → Bytes
  | .Partial => [SLASH, DOT, UNDERSCORE]
  | _ => [UNDERSCORE]

theorem naming_nameChars (kind : ActionType) : Naming (nameChars kind) := by
  cases kind with
  | Partial => exact naming_paths
  | _ => exact naming_names

theorem ValidName.isName {chs name : Bytes} (h : ValidName chs name) (hchs : Naming chs) :
    IsName name := by
  obtain ⟨c, s, rfl, hc, hs⟩ := h
  refine ⟨⟨c, s, rfl, hc⟩, fun d hd => ?_⟩
  rcases List.mem_cons.mp hd with rfl | hd
  · refine ⟨head_not_space hc, ?_⟩
    rintro rfl
    revert hc
    decide
  · exact hchs d (hs d hd)

theorem drop_of_peek {pos : Nat} {c : UInt8} (h : peek t pos = c) (hc : c ≠ NUL) :
    t.drop pos = c :: t.drop (pos + 1) := by
  rw [peek_eq_headD] at h
  cases hd : t.drop pos with
  | nil =>
      rw [hd] at h
      exact absurd h.symm hc
  | cons d x =>
      rw [hd] at h
      rw [drop_succ hd]
      exact congrArg (· :: x) h

theorem drop_takeWhile (q : UInt8 → Bool) (pos : Nat) :
    t.drop pos =
      (t.drop pos).takeWhile q ++ t.drop (pos + ((t.drop pos).takeWhile q).length) := by
  have h : t.drop pos = (t.drop pos).takeWhile q ++ (t.drop pos).dropWhile q :=
    List.takeWhile_append_dropWhile.symm
  rw [drop_add h]
  exact h

theorem drop_eatSpace (t : Bytes) (pos : Nat) :
    ∃ a, Spaces a ∧ t.drop pos = a ++ t.drop (eatSpace t pos) :=
  ⟨(t.drop pos).takeWhile isSpace, fun _ hc => List.mem_takeWhile_imp hc, drop_takeWhile isSpace pos⟩

/-- Where `__toLastIndex` succeeds there is a valid name between spaces, and closing braces. -/
theorem toLastIndex_inv {chs : Bytes} {pos : Nat} {r : Nat × Nat × Nat}
    (h : toLastIndex t chs pos = .ok r) : ∃ b name c rest,
      t.drop pos = b ++ (name ++ (c ++ (CLOSE ++ rest))) ∧ Spaces b ∧ ValidName chs name ∧
        Spaces c := by
  obtain ⟨b, hb, hdropB⟩ := drop_eatSpace t pos
  unfold toLastIndex at h
  dsimp only at h
  generalize eatSpace t pos = s at hdropB h
  split_ifs at h with hhead hfirst hsecond
  · nomatch h
  · nomatch h
  · nomatch h
  rw [not_not] at hfirst hsecond
  have halpha : isAlpha (peek t s) = true ∨ peek t s = UNDERSCORE := by
    rw [Bool.and_eq_true, not_and, decide_eq_true_iff, not_not, Bool.not_eq_true'] at hhead
    by_cases hc : isAlpha (peek t s) = true
    · exact .inl hc
    · exact .inr (hhead (Bool.not_eq_true _ ▸ hc))
  have hne : peek t s ≠ NUL := by
    intro hnul
    rw [hnul] at halpha
    revert halpha
    decide
  generalize hn : (t.drop (s + 1)).takeWhile (isNameChar chs) = n at hfirst hsecond
  obtain ⟨c, hc, hdropC⟩ := drop_eatSpace t (s + 1 + n.length)
  generalize eatSpace t (s + 1 + n.length) = p at hdropC hfirst hsecond
  have hdropN : t.drop (s + 1) = n ++ t.drop (s + 1 + n.length) := by
    rw [← hn]
    exact drop_takeWhile (isNameChar chs) (s + 1)
  refine ⟨b, peek t s :: n, c, t.drop (p + 1 + 1), ?_, hb, ⟨_, n, rfl, halpha, ?_⟩, hc⟩
  · rw [hdropB, drop_of_peek rfl hne, hdropN, hdropC, drop_of_peek hfirst (by decide),
      drop_of_peek hsecond (by decide)]
    rfl
  · rw [← hn]
    exact fun d hd => List.mem_takeWhile_imp hd

/-- In front of such a name it succeeds. -/
theorem toLastIndex_valid {chs b name c rest : Bytes} {pos : Nat}
    (hdrop : t.drop pos = b ++ (name ++ (c ++ (CLOSE ++ rest)))) (hchs : Naming chs)
    (hb : Spaces b) (hname : ValidName chs name) (hc : Spaces c) :
    toLastIndex t chs pos = .ok (pos + b.length, pos + b.length + name.length,
      pos + b.length + name.length + c.length + 2) := by
  have hok : ∃ r, toLastIndex t chs pos = .ok r := by
    obtain ⟨d, n, rfl, hd, hn⟩ := hname
    have hs : eatSpace t pos = pos + b.length := eatSpace_of_drop hdrop hb (head_not_space hd)
    have hdropS : t.drop (pos + b.length) = d :: (n ++ (c ++ (CLOSE ++ rest))) := drop_add hdrop
    have hdropN : t.drop (pos + b.length + 1) = n ++ (c ++ (CLOSE ++ rest)) := drop_succ hdropS
    have hdropE : t.drop (pos + b.length + 1 + n.length) = c ++ (CLOSE ++ rest) := drop_add hdropN
    have hdropP := drop_add hdropE
    have he : eatSpace t (pos + b.length + 1 + n.length) =
        pos + b.length + 1 + n.length + c.length := eatSpace_of_drop hdropE hc space_rbrace
    have hhead : ¬((!isAlpha d && decide (d ≠ UNDERSCORE)) = true) := by
      rcases hd with hd | rfl
      · rw [hd]; exact Bool.false_ne_true
      · decide
    unfold toLastIndex
    simp only [hs, peek_of_drop hdropS]
    rw [if_neg hhead, hdropN, List.takeWhile_append_of_pos hn, takeWhile_behind hchs hc,
      List.append_nil, he, peek_of_drop hdropP, peek_of_drop (drop_succ hdropP),
      if_neg (not_not.mpr rfl), if_neg (not_not.mpr rfl)]
    exact ⟨_, rfl⟩
  obtain ⟨r, hr⟩ := hok
  rw [hr, toLastIndex_reads hdrop hchs hb (hname.isName hchs) hc hr]

/-! ## Comments -/

theorem commentLength_eq {x y : Bytes} (h : RBRACE ∉ x) :
    commentLength (x ++ RBRACE :: y) = x.length - 1 := by
  cases x with
  | nil => rw [List.nil_append, commentLength, if_pos (.inl rfl)]; rfl
  | cons d s => exact commentLength_of_notMem h

theorem commentLength_of_open {s : Bytes} (h : RBRACE ∉ s) : commentLength s = s.length := by
  induction s with
  | nil => rfl
  | cons c s ih =>
      rw [List.mem_cons, not_or] at h
      have hgo : ¬(c = RBRACE ∨ s.headD NUL = RBRACE) := by
        rintro (hc | hs)
        · exact h.1 hc.symm
        · cases s with
          | nil => exact absurd hs (by decide)
          | cons d s => exact h.2 (hs ▸ List.mem_cons_self)
      rw [commentLength, if_neg hgo, ih h.2]
      rfl

/-- The text of a comment ends at the first closing brace, or behind it when it is the first
character, and two more characters are skipped. -/
theorem ignored_eq {p : Parser} {pos : Nat} {x y : Bytes} (hdrop : t.drop pos = x ++ RBRACE :: y)
    (hx : RBRACE ∉ x) :
    ignored t p pos = .ok (p.act ⟨.Ignore, pos, pos + max x.length 1, 0⟩
      (pos + max x.length 1 + 2)) := by
  have hstop : pos + commentLength (t.drop pos) + 1 = pos + max x.length 1 := by
    rw [hdrop, commentLength_eq hx]
    omega
  have hpeek : peek t (pos + x.length) = RBRACE := peek_of_drop (drop_add hdrop)
  unfold ignored
  dsimp only
  rw [hstop, if_neg]
  · rw [← hstop]
  · rintro ⟨hfirst, hsecond⟩
    cases x with
    | nil =>
        rw [hdrop] at hfirst
        exact hfirst hpeek
    | cons d x =>
        rw [max_eq_left (by rw [List.length_cons]; omega)] at hsecond
        exact hsecond hpeek

theorem ignored_inv {p p' : Parser} {pos : Nat} (h : ignored t p pos = .ok p') :
    RBRACE ∈ t.drop pos := by
  by_contra hno
  unfold ignored at h
  dsimp only at h
  have hend : ∀ i, t.length ≤ i → peek t i ≠ RBRACE := by
    intro i hi
    rw [peek_eq_headD, List.drop_eq_nil_of_le hi]
    decide
  have hlen : t.length ≤ pos + commentLength (t.drop pos) := by
    rw [commentLength_of_open hno, List.length_drop]
    omega
  rw [if_pos ⟨hend _ hlen, hend _ (Nat.le_succ_of_le hlen)⟩] at h
  nomatch h

/-! ## Tags -/

/-- What becomes of the parser when it has read a tag: a section is opened, or the innermost one is
closed by its own name. -/
def Parser.push (t : Bytes) (p : Parser) (kind : ActionType) (first last stop : Nat) :
    Option Parser :=
  match kind with
  | .OpenBlock => some { p.act ⟨.OpenBlock, first, last, 0⟩ stop with
      blocks := p.actions.length :: p.blocks }
  | .ElseBlock => some { p.act ⟨.ElseBlock, first, last, 0⟩ stop with
      blocks := p.actions.length :: p.blocks }
  | .CloseBlock =>
      match p.blocks with
      | [] => none
      | b :: blocks =>
          if tagString t (p.actions.getD b ⟨.Ignore, 0, 0, 0⟩) =
              tagString t ⟨.CloseBlock, first, last, b⟩ then
            some { p.act ⟨.CloseBlock, first, last, b⟩ stop with blocks := blocks }
          else none
  | kind => some (p.act ⟨kind, first, last, 0⟩ stop)

/-- The position and the lists of a parser that has read a tag. -/
theorem push_spec {p p' : Parser} {kind : ActionType} {first last stop : Nat}
    (h : p.push t kind first last stop = some p') : p'.pos = stop ∧ p'.frag = stop ∧
      p'.fragments = p.fragments ∧ ∃ act, p'.actions = p.actions ++ [act] := by
  unfold Parser.push at h
  split at h
  · cases h; exact ⟨rfl, rfl, rfl, _, rfl⟩
  · cases h; exact ⟨rfl, rfl, rfl, _, rfl⟩
  · split at h
    · nomatch h
    · split_ifs at h
      cases h
      exact ⟨rfl, rfl, rfl, _, rfl⟩
  · cases h; exact ⟨rfl, rfl, rfl, _, rfl⟩

section
variable {p : Parser} {a b name c rest : Bytes} {pos : Nat}

private theorem named_push {chs : Bytes} {tag : ActionType}
    (hdrop : t.drop pos = b ++ (name ++ (c ++ (CLOSE ++ rest)))) (hchs : Naming chs)
    (hb : Spaces b) (hname : ValidName chs name) (hc : Spaces c) :
    named t chs p tag pos = .ok (p.act ⟨tag, pos + b.length, pos + b.length + name.length, 0⟩
      (pos + b.length + name.length + c.length + 2)) := by
  rw [named, toLastIndex_valid hdrop hchs hb hname hc]
  rfl

private theorem opening_push {tag : ActionType}
    (hdrop : t.drop pos = b ++ (name ++ (c ++ (CLOSE ++ rest)))) (hb : Spaces b)
    (hname : ValidName [UNDERSCORE] name) (hc : Spaces c) :
    opening t p tag pos = .ok { p.act ⟨tag, pos + b.length, pos + b.length + name.length, 0⟩
      (pos + b.length + name.length + c.length + 2) with
        blocks := p.actions.length :: p.blocks } := by
  rw [opening, named_push hdrop naming_names hb hname hc]
  rfl

private theorem closing_push (hdrop : t.drop (pos + 1) = b ++ (name ++ (c ++ (CLOSE ++ rest))))
    (hb : Spaces b) (hname : ValidName [UNDERSCORE] name) (hc : Spaces c) :
    (closing t p pos).toOption = p.push t .CloseBlock (pos + 1 + b.length)
      (pos + 1 + b.length + name.length) (pos + 1 + b.length + name.length + c.length + 2) := by
  rw [closing, Parser.push]
  cases p.blocks with
  | nil => rfl
  | cons i blocks =>
      dsimp only
      rw [toLastIndex_valid hdrop naming_names hb hname hc, Except.bind_of_ok]
      simp only [ne_eq, ite_not]
      split_ifs
      · rfl
      · rfl

private theorem unescaped_push
    (hdrop : t.drop pos = b ++ (name ++ (c ++ (CLOSE ++ ([RBRACE] ++ rest))))) (hb : Spaces b)
    (hname : ValidName [UNDERSCORE] name) (hc : Spaces c) :
    unescaped t p pos = .ok (p.act ⟨.UnEscapeTag, pos + b.length, pos + b.length + name.length, 0⟩
      (pos + b.length + name.length + c.length + 3)) := by
  have hpeek : peek t (pos + b.length + name.length + c.length + 2) = RBRACE :=
    peek_of_drop (drop_add (drop_add (drop_add (drop_add hdrop))))
  rw [unescaped, toLastIndex_valid hdrop naming_names hb hname hc, Except.bind_of_ok]
  dsimp only
  rw [hpeek, if_neg (not_not.mpr rfl)]

/-- In front of `width` bytes of a tag the parser reads this tag, if it may stand here. -/
structure Pushes (t : Bytes) (p : Parser) (kind : ActionType) (name : Bytes) (width : Nat)
    (rest : Bytes) : Prop where
  push : ∃ first last, (∀ n, tagString t ⟨kind, first, last, n⟩ = name) ∧
    (parser_ReadTag t p).toOption = p.push t kind first last (p.pos + width)
  behind : t.drop (p.pos + width) = rest

private theorem tag_pushes
    (hdrop : t.drop p.pos = a ++ (b ++ (name ++ (c ++ (CLOSE ++ rest)))))
    (hname : ValidName [UNDERSCORE] name) (ha : Spaces a) (hb : Spaces b) (hc : Spaces c) :
    Pushes t p .Tag name (a.length + b.length + name.length + c.length + 2) rest := by
  obtain ⟨d, n, rfl, hd, hn⟩ := hname
  have hspaces : Spaces (a ++ b) := fun x hx => (List.mem_append.mp hx).elim (ha x) (hb x)
  have hdropD : t.drop p.pos = (a ++ b) ++ d :: (n ++ (c ++ (CLOSE ++ rest))) := by
    rw [hdrop, List.append_assoc a b]
    rfl
  have hdropN : t.drop (p.pos + (a ++ b).length) = [] ++ ((d :: n) ++ (c ++ (CLOSE ++ rest))) :=
    drop_add hdropD
  obtain ⟨he, hpeek, -⟩ := readTag_sign hdropD hspaces (head_not_space hd)
  obtain ⟨h1, h2, h3, h4, h5, h6, h7, h8⟩ := head_no_sign hd
  have hstop : p.pos + (a.length + b.length + (d :: n).length + c.length + 2) =
      p.pos + (a ++ b).length + ([] : Bytes).length + (d :: n).length + c.length + 2 := by
    rw [List.length_append, List.length_nil]
    omega
  refine ⟨⟨_, _, fun _ => tagString_reads hdropN, ?_⟩, ?_⟩
  · rw [hstop]
    unfold parser_ReadTag
    dsimp only
    rw [he, hpeek, if_neg h1, if_neg h2, if_neg h3, if_neg h4, if_neg h5, if_neg h6, if_neg h7,
      if_neg h8, named_push hdropN naming_names nofun ⟨d, n, rfl, hd, hn⟩ hc]
    rfl
  · rw [hstop]
    exact drop_add (a := CLOSE) (drop_add (drop_add (drop_add hdropN)))

private theorem signed_pushes {kind : ActionType} (hkind : kind ≠ .Ignore)
    (hdrop : t.drop p.pos = a ++ (sign kind ++ (b ++ (name ++ (c ++ (CLOSE ++ rest))))))
    (hname : ValidName (nameChars kind) name) (ha : Spaces a) (hb : Spaces b) (hc : Spaces c) :
    Pushes t p kind name
      (a.length + (sign kind).length + b.length + name.length + c.length + 2) rest := by
  -- each sign in the order in which it is tried
  cases kind with
  | Ignore => exact absurd rfl hkind
  | Tag => exact tag_pushes hdrop hname ha hb hc
  | OpenBlock =>
      obtain ⟨he, hpeek, hbehind⟩ := readTag_sign hdrop ha (by decide)
      refine ⟨⟨_, _, fun _ => tagString_reads hbehind, ?_⟩, ?_⟩
      · unfold parser_ReadTag
        dsimp only
        rw [he, hpeek, if_pos rfl, opening_push hbehind hb hname hc]
        simp only [sign, List.length_singleton, ← Nat.add_assoc]
        rfl
      · simp only [sign, List.length_singleton, ← Nat.add_assoc]
        exact drop_add (a := CLOSE) (drop_add (drop_add (drop_add hbehind)))
  | CloseBlock =>
      obtain ⟨he, hpeek, hbehind⟩ := readTag_sign hdrop ha (by decide)
      refine ⟨⟨_, _, fun _ => tagString_reads hbehind, ?_⟩, ?_⟩
      · unfold parser_ReadTag
        dsimp only
        rw [he, hpeek, if_neg (by decide), if_pos rfl, closing_push hbehind hb hname hc]
        simp only [sign, List.length_singleton, ← Nat.add_assoc]
      · simp only [sign, List.length_singleton, ← Nat.add_assoc]
        exact drop_add (a := CLOSE) (drop_add (drop_add (drop_add hbehind)))
  | ElseBlock =>
      obtain ⟨he, hpeek, hbehind⟩ := readTag_sign hdrop ha (by decide)
      refine ⟨⟨_, _, fun _ => tagString_reads hbehind, ?_⟩, ?_⟩
      · unfold parser_ReadTag
        dsimp only
        rw [he, hpeek, if_neg (by decide), if_neg (by decide), if_pos rfl,
          opening_push hbehind hb hname hc]
        simp only [sign, List.length_singleton, ← Nat.add_assoc]
        rfl
      · simp only [sign, List.length_singleton, ← Nat.add_assoc]
        exact drop_add (a := CLOSE) (drop_add (drop_add (drop_add hbehind)))
  | Partial =>
      obtain ⟨he, hpeek, hbehind⟩ := readTag_sign hdrop ha (by decide)
      refine ⟨⟨_, _, fun _ => tagString_reads hbehind, ?_⟩, ?_⟩
      · unfold parser_ReadTag
        dsimp only
        rw [he, hpeek, if_neg (by decide), if_neg (by decide), if_neg (by decide),
          if_neg (by decide), if_pos rfl, named_push hbehind naming_paths hb hname hc]
        simp only [sign, List.length_singleton, ← Nat.add_assoc]
        rfl
      · simp only [sign, List.length_singleton, ← Nat.add_assoc]
        exact drop_add (a := CLOSE) (drop_add (drop_add (drop_add hbehind)))
  | UnEscapeTag =>
      obtain ⟨he, hpeek, hbehind⟩ := readTag_sign hdrop ha (by decide)
      refine ⟨⟨_, _, fun _ => tagString_reads hbehind, ?_⟩, ?_⟩
      · unfold parser_ReadTag
        dsimp only
        rw [he, hpeek, if_neg (by decide), if_neg (by decide), if_neg (by decide),
          if_neg (by decide), if_neg (by decide), if_neg (by decide), if_pos rfl,
          named_push hbehind naming_names hb hname hc]
        simp only [sign, List.length_singleton, ← Nat.add_assoc]
        rfl
      · simp only [sign, List.length_singleton, ← Nat.add_assoc]
        exact drop_add (a := CLOSE) (drop_add (drop_add (drop_add hbehind)))

private theorem triple_pushes
    (hdrop : t.drop p.pos = a ++ LBRACE :: (b ++ (name ++ (c ++ (CLOSE ++ ([RBRACE] ++ rest))))))
    (hname : ValidName [UNDERSCORE] name) (ha : Spaces a) (hb : Spaces b) (hc : Spaces c) :
    Pushes t p .UnEscapeTag name (a.length + 1 + b.length + name.length + c.length + 3) rest := by
  obtain ⟨he, hpeek, hbehind⟩ := readTag_sign hdrop ha (by decide)
  refine ⟨⟨_, _, fun _ => tagString_reads hbehind, ?_⟩, ?_⟩
  · unfold parser_ReadTag
    dsimp only
    rw [he, hpeek, if_neg (by decide), if_neg (by decide), if_neg (by decide),
      if_neg (by decide), if_neg (by decide), if_pos rfl, unescaped_push hbehind hb hname hc]
    simp only [← Nat.add_assoc]
    rfl
  · simp only [← Nat.add_assoc]
    exact drop_add (a := CLOSE ++ [RBRACE]) (drop_add (drop_add (drop_add hbehind)))

/-- In front of a tag with a valid name that is no comment, behind its opening braces. -/
theorem readTag_spelled {kind : ActionType} {tag : Bytes}
    (hdrop : OPEN ++ t.drop p.pos = tag ++ rest) (htag : Spells kind name tag)
    (hkind : kind ≠ .Ignore) (hname : ValidName (nameChars kind) name) :
    ∃ width, width + 2 = tag.length ∧ Pushes t p kind name width rest := by
  cases htag with
  | @named _ _ a b c _ _ ha hb hc =>
      have hdrop' : t.drop p.pos = a ++ (sign kind ++ (b ++ (name ++ (c ++ (CLOSE ++ rest))))) := by
        rw [List.append_assoc] at hdrop
        rw [List.append_cancel_left hdrop]
        simp only [List.append_assoc]
      refine ⟨_, ?_, signed_pushes hkind hdrop' hname ha hb hc⟩
      simp only [List.length_append, OPEN, CLOSE, List.length_cons, List.length_nil]
      omega
  | @triple _ a b c _ ha hb hc =>
      have hdrop' : t.drop p.pos =
          a ++ LBRACE :: (b ++ (name ++ (c ++ (CLOSE ++ ([RBRACE] ++ rest))))) := by
        rw [List.append_assoc] at hdrop
        rw [List.append_cancel_left hdrop]
        simp only [List.append_assoc, List.cons_append, List.nil_append]
      refine ⟨_, ?_, triple_pushes hdrop' hname ha hb hc⟩
      simp only [List.length_append, OPEN, CLOSE, List.length_cons, List.length_nil]
      omega
  | comment => exact absurd rfl hkind

theorem readTag_comment {body : Bytes} (hdrop : t.drop p.pos = a ++ BANG :: body) (ha : Spaces a) :
    parser_ReadTag t p = ignored t p (p.pos + a.length + 1) := by
  obtain ⟨he, hpeek, -⟩ := readTag_sign hdrop ha (by decide)
  unfold parser_ReadTag
  dsimp only
  rw [he, hpeek, if_neg (by decide), if_neg (by decide), if_neg (by decide), if_pos rfl]

/-- Where the parser reads a tag there is one, or a comment. -/
theorem readTag_inv {p' : Parser} (h : parser_ReadTag t p = .ok p') :
    (∃ kind name tag rest, kind ≠ .Ignore ∧ OPEN ++ t.drop p.pos = tag ++ rest ∧
      Spells kind name tag ∧ ValidName (nameChars kind) name) ∨
    ∃ a body, t.drop p.pos = a ++ BANG :: body ∧ Spaces a := by
  obtain ⟨a, ha, hdropA⟩ := drop_eatSpace t p.pos
  -- a tag with this sign, from what `__toLastIndex` finds behind it
  have hsigned : ∀ kind d, kind ≠ .Ignore → sign kind = [d] → d ≠ NUL →
      peek t (eatSpace t p.pos) = d → ∀ r,
      toLastIndex t (nameChars kind) (eatSpace t p.pos + 1) = .ok r →
      ∃ kind name tag rest, kind ≠ ActionType.Ignore ∧ OPEN ++ t.drop p.pos = tag ++ rest ∧
        Spells kind name tag ∧ ValidName (nameChars kind) name := by
    intro kind d hkind hsign hd hpeek r hr
    obtain ⟨b, name, c, rest, hdropB, hb, hname, hc⟩ := toLastIndex_inv hr
    refine ⟨kind, name, _, rest, hkind, ?_,
      .named hkind (hname.isName (naming_nameChars kind)) ha hb hc, hname⟩
    rw [hdropA, drop_of_peek hpeek hd, hdropB, hsign]
    simp only [List.append_assoc, List.cons_append, List.nil_append]
  unfold parser_ReadTag at h
  dsimp only at h
  split_ifs at h with hhash hslash hcaret hbang hgt hbrace hamp heq
  · obtain ⟨q, hq, -⟩ := Except.ok_of_bind h
    obtain ⟨r, hr, -⟩ := Except.ok_of_bind hq
    exact .inl (hsigned .OpenBlock HASH (by decide) rfl (by decide) hhash r hr)
  · unfold closing at h
    split at h
    · nomatch h
    · obtain ⟨r, hr, -⟩ := Except.ok_of_bind h
      exact .inl (hsigned .CloseBlock SLASH (by decide) rfl (by decide) hslash r hr)
  · obtain ⟨q, hq, -⟩ := Except.ok_of_bind h
    obtain ⟨r, hr, -⟩ := Except.ok_of_bind hq
    exact .inl (hsigned .ElseBlock CARET (by decide) rfl (by decide) hcaret r hr)
  · exact .inr ⟨a, _, by rw [hdropA, drop_of_peek hbang (by decide)], ha⟩
  · obtain ⟨r, hr, -⟩ := Except.ok_of_bind h
    exact .inl (hsigned .Partial GT (by decide) rfl (by decide) hgt r hr)
  · obtain ⟨r, hr, h⟩ := Except.ok_of_bind h
    obtain ⟨b, name, c, rest, hdropB, hb, hname, hc⟩ := toLastIndex_inv hr
    rw [toLastIndex_valid hdropB naming_names hb hname hc] at hr
    cases hr
    dsimp only at h
    split_ifs at h with hthird
    · nomatch h
    · rw [not_not] at hthird
      have hrest := drop_of_peek hthird (by decide)
      have hbehind : t.drop (eatSpace t p.pos + 1 + b.length + name.length + c.length + 2) = rest :=
        drop_add (a := CLOSE) (drop_add (drop_add (drop_add hdropB)))
      rw [hbehind] at hrest
      obtain ⟨rest', rfl⟩ : ∃ rest', rest = RBRACE :: rest' := ⟨_, hrest⟩
      refine .inl ⟨.UnEscapeTag, name, _, rest', by decide, ?_,
        .triple (hname.isName naming_names) ha hb hc, hname⟩
      rw [hdropA, drop_of_peek hbrace (by decide), hdropB]
      simp only [List.append_assoc, List.cons_append, List.nil_append]
  · obtain ⟨r, hr, -⟩ := Except.ok_of_bind h
    exact .inl (hsigned .UnEscapeTag AMP (by decide) rfl (by decide) hamp r hr)
  · nomatch h
  · obtain ⟨r, hr, -⟩ := Except.ok_of_bind h
    obtain ⟨b, name, c, rest, hdropB, hb, hname, hc⟩ := toLastIndex_inv hr
    refine .inl ⟨.Tag, name, _, rest, by decide, ?_,
      .named (by decide) (hname.isName naming_names) ha hb hc, hname⟩
    rw [hdropA, hdropB]
    simp only [sign, List.append_assoc, List.nil_append]

/-- What the parser reads: a tag of the reference, or a comment up to some closing brace. -/
inductive Read (t : Bytes) (p p' : Parser) : Prop where
  | spelled {kind : ActionType} {name tag rest : Bytes} (hkind : kind ≠ .Ignore)
      (hdrop : OPEN ++ t.drop p.pos = tag ++ rest) (htag : Spells kind name tag)
      (hpos : p'.pos + 2 = p.pos + tag.length)
  | comment {a x y : Bytes} (hdrop : t.drop p.pos = a ++ BANG :: (x ++ RBRACE :: y))
      (ha : Spaces a) (hx : RBRACE ∉ x)
      (hpos : p'.pos = p.pos + a.length + 1 + max x.length 1 + 2)

theorem readTag_read {p' : Parser} (h : parser_ReadTag t p = .ok p') :
    Read t p p' ∧ p'.frag = p'.pos ∧ p'.fragments = p.fragments ∧
      ∃ act, p'.actions = p.actions ++ [act] := by
  rcases readTag_inv h with ⟨kind, name, tag, rest, hkind, hdrop, htag, hname⟩ | ⟨a, body, hdrop, ha⟩
  · obtain ⟨width, hwidth, ⟨first, last, -, hpush⟩, -⟩ := readTag_spelled hdrop htag hkind hname
    rw [h] at hpush
    obtain ⟨hpos, hfrag, hfragments, hacts⟩ := push_spec hpush.symm
    exact ⟨.spelled hkind hdrop htag (by omega), hfrag.trans hpos.symm, hfragments, hacts⟩
  · have hignored := h
    rw [readTag_comment hdrop ha] at hignored
    have hbody : t.drop (p.pos + a.length + 1) = body := drop_succ (drop_add hdrop)
    have hbrace := ignored_inv hignored
    rw [hbody] at hbrace
    obtain ⟨x, y, rfl, hx⟩ := List.eq_append_cons_of_mem hbrace
    rw [ignored_eq hbody hx] at hignored
    cases hignored
    exact ⟨.comment hdrop ha hx rfl, rfl, rfl, _, rfl⟩

end

/-! ## The loop -/

theorem free_cons_iff {c : UInt8} {x : Bytes} :
    Free OPEN (c :: x) ↔ ¬(c = LBRACE ∧ x.headD NUL = LBRACE) ∧ Free OPEN x := by
  refine ⟨free_cons, fun ⟨hno, hfree⟩ a b hab => ?_⟩
  cases a with
  | nil =>
      cases hab
      exact hno ⟨rfl, rfl⟩
  | cons d a => exact hfree a b (List.cons.inj hab).2

theorem free_nil : Free OPEN [] := fun a b h => by
  have hlen := congrArg List.length h
  simp only [List.length_append, OPEN, List.length_cons, List.length_nil] at hlen
  omega

/-- A text goes on to the first two opening braces, or to the end. -/
theorem free_or_split (s : Bytes) :
    Free OPEN s ∨ ∃ text x, s = text ++ (OPEN ++ x) ∧ Free OPEN (text ++ [LBRACE]) := by
  induction s with
  | nil => exact .inl free_nil
  | cons c s ih =>
      by_cases hopen : c = LBRACE ∧ s.headD NUL = LBRACE
      · obtain ⟨rfl, hs⟩ := hopen
        cases s with
        | nil => exact absurd hs (by decide)
        | cons d s =>
            cases (show d = LBRACE from hs)
            exact .inr ⟨[], s, rfl, free_cons_iff.mpr ⟨by decide, free_nil⟩⟩
      · rcases ih with hfree | ⟨text, x, rfl, hfree⟩
        · exact .inl (free_cons_iff.mpr ⟨hopen, hfree⟩)
        · refine .inr ⟨c :: text, x, rfl, free_cons_iff.mpr ⟨?_, hfree⟩⟩
          rintro ⟨hc, hhead⟩
          apply hopen
          refine ⟨hc, ?_⟩
          cases text with
          | nil => rfl
          | cons d text => exact hhead

theorem parseLoop_skip {fuel : Nat} {p : Parser} {text x : Bytes}
    (hdrop : t.drop p.pos = text ++ x) (hfree : Free OPEN (text ++ x.take 1)) :
    parseLoop t (text.length + fuel) p =
      parseLoop t fuel { p with pos := p.pos + text.length } := by
  induction text generalizing p with
  | nil => rw [List.length_nil, Nat.zero_add]; rfl
  | cons c s ih =>
      have hdrop' : t.drop p.pos = c :: (s ++ x) := hdrop
      obtain ⟨hno, hfree⟩ := free_cons hfree
      have hno' : ¬(peek t p.pos = LBRACE ∧ peek t (p.pos + 1) = LBRACE) := by
        rw [peek_of_drop hdrop', peek_eq_headD, drop_succ hdrop', ← headD_take_one]
        exact hno
      rw [List.length_cons, Nat.succ_add, parseLoop,
        if_neg (Nat.not_le_of_lt (lt_of_drop hdrop)), if_neg hno',
        ih (p := { p with pos := p.pos + 1 }) (drop_succ hdrop) hfree,
        Nat.add_comm s.length 1, ← Nat.add_assoc]

/-- The parser in front of a tag that starts `n` bytes further on, behind its opening braces. -/
def Parser.opened (p : Parser) (n : Nat) : Parser :=
  { p with fragments := p.fragments ++ [(p.frag, p.pos + n)], pos := p.pos + n + 2 }

theorem parseLoop_open {fuel : Nat} {p : Parser} {x : Bytes} (hdrop : t.drop p.pos = OPEN ++ x) :
    parseLoop t (fuel + 1) p = parser_ReadTag t (p.opened 0) >>= parseLoop t fuel := by
  have hdropO : t.drop p.pos = LBRACE :: (LBRACE :: x) := hdrop
  rw [parseLoop, if_neg (Nat.not_le_of_lt (lt_of_drop hdropO)),
    if_pos ⟨peek_of_drop hdropO, peek_of_drop (drop_succ hdropO)⟩]
  rfl

/-- Where the loop succeeds there is a text, up to the end or up to a tag that is read. -/
theorem parseLoop_inv {fuel : Nat} {p q : Parser} (h : parseLoop t fuel p = .ok q) :
    (Free OPEN (t.drop p.pos) ∧ q = { p with pos := p.pos + (t.length - p.pos) }) ∨
      ∃ text x fuel' p', t.drop p.pos = text ++ (OPEN ++ x) ∧ Free OPEN (text ++ [LBRACE]) ∧
        parser_ReadTag t (p.opened text.length) = .ok p' ∧ parseLoop t fuel' p' = .ok q := by
  rcases free_or_split (t.drop p.pos) with hfree | ⟨text, x, hdrop, hfree⟩
  · left
    refine ⟨hfree, ?_⟩
    obtain ⟨fuel', h⟩ := parseLoop_text (List.append_nil _).symm (by
      rw [List.take_nil, List.append_nil]
      exact hfree) h
    rw [List.length_drop] at h
    rw [parseLoop_end (Nat.sub_le_iff_le_add'.mp (Nat.le_refl _))] at h
    injection h with h
    exact h.symm
  · right
    obtain ⟨fuel', h⟩ := parseLoop_text hdrop hfree h
    have hdropO : t.drop (p.pos + text.length) = OPEN ++ x := drop_add hdrop
    cases fuel' with
    | zero =>
        rw [parseLoop, if_neg (Nat.not_le_of_lt (lt_of_drop hdropO))] at h
        cases h
    | succ fuel' =>
        rw [parseLoop_open (p := { p with pos := p.pos + text.length }) hdropO] at h
        obtain ⟨p', hp', h⟩ := Except.ok_of_bind h
        exact ⟨text, x, fuel', p', hdrop, hfree, hp', h⟩

theorem Lexed.append {s s' last : Bytes} {pieces pieces' : List Piece} (h : Lexed s pieces [])
    (h' : Lexed s' pieces' last) : Lexed (s ++ s') (pieces ++ pieces') last := by
  generalize hend : ([] : Bytes) = e at h
  induction h with
  | last htext =>
      subst hend
      exact h'
  | piece htext htag hrest ih =>
      rw [List.append_assoc, List.append_assoc]
      exact .piece htext htag (ih hend)

end Suil.Mustache
