import Mathlib
import Suil.Lib.Traced
import Suil.Mustache.Reference

set_option autoImplicit false

/-! # What parsing reads

`parse` goes through the template with a position, and the reference says how the template is made of
texts and tags. `t.drop pos` connects the two: every function of the parser that succeeds in front of
a tag leaves the position behind the tag (`Reads`), and the loop of `parse` leaves the texts, the
kinds and the names of the pieces (`Describes`). That a section is closed by its own name is in the
shape of a `Forest`, so the indices of the open sections play no part here. -/

namespace Suil.Mustache

variable {t : Bytes}

/-! ## Positions -/

theorem drop_add {pos : Nat} {a x : Bytes} (h : t.drop pos = a ++ x) :
    t.drop (pos + a.length) = x := by
  rw [← List.drop_drop, h, List.drop_left]

theorem drop_succ {pos : Nat} {c : UInt8} {x : Bytes} (h : t.drop pos = c :: x) :
    t.drop (pos + 1) = x :=
  drop_add (a := [c]) h

theorem peek_of_drop {pos : Nat} {c : UInt8} {x : Bytes} (h : t.drop pos = c :: x) :
    peek t pos = c := by
  have hget : t[pos]? = some c := by rw [← List.head?_drop, h]; rfl
  rw [peek, List.getD_eq_getElem?_getD, hget]
  rfl

theorem lt_of_drop {pos : Nat} {c : UInt8} {x : Bytes} (h : t.drop pos = c :: x) :
    pos < t.length := by
  by_contra hle
  rw [List.drop_eq_nil_of_le (Nat.le_of_not_lt hle)] at h
  nomatch h

theorem eatSpace_of_drop {pos : Nat} {a x : Bytes} {c : UInt8} (h : t.drop pos = a ++ c :: x)
    (ha : Spaces a) (hc : isSpace c = false) : eatSpace t pos = pos + a.length := by
  rw [eatSpace, h, List.takeWhile_append_of_pos ha,
    List.takeWhile_cons_of_neg (by rw [hc]; exact Bool.false_ne_true), List.append_nil]

theorem drop_take_of_drop {pos : Nat} {a x : Bytes} (h : t.drop pos = a ++ x) :
    (t.drop pos).take (pos + a.length - pos) = a := by
  rw [h, Nat.add_sub_cancel_left, List.take_left]

/-! ## Names -/

/-- The characters of a name are neither spaces nor closing braces. -/
def Naming (chs : Bytes) : Prop := ∀ c, isNameChar chs c = true → isSpace c = false ∧ c ≠ RBRACE

set_option maxRecDepth 8000 in
theorem naming_names : Naming [UNDERSCORE] := fun c =>
  forall_byte
    (P := fun c => isNameChar [UNDERSCORE] c = true → isSpace c = false ∧ c ≠ RBRACE)
    (by decide) c

set_option maxRecDepth 8000 in
theorem naming_paths : Naming [SLASH, DOT, UNDERSCORE] := fun c =>
  forall_byte
    (P := fun c => isNameChar [SLASH, DOT, UNDERSCORE] c = true → isSpace c = false ∧ c ≠ RBRACE)
    (by decide) c

theorem space_rbrace : isSpace RBRACE = false := by decide

set_option maxRecDepth 8000 in
theorem head_not_space {c : UInt8} (h : isAlpha c = true ∨ c = UNDERSCORE) : isSpace c = false :=
  forall_byte (P := fun c => isAlpha c = true ∨ c = UNDERSCORE → isSpace c = false)
    (by decide) c h

/-- A run of name characters ends with the name, or before. -/
private theorem takeWhile_name {p : UInt8 → Bool} {x : Bytes} (hx : x.takeWhile p = []) (n : Bytes) :
    (n ++ x).takeWhile p = n ∨
      ∃ n₁ d n₂, n = n₁ ++ d :: n₂ ∧ p d = false ∧ (n ++ x).takeWhile p = n₁ := by
  induction n with
  | nil => exact .inl hx
  | cons c n ih =>
      cases hc : p c with
      | false =>
          refine .inr ⟨[], c, n, rfl, hc, ?_⟩
          rw [List.cons_append, List.takeWhile_cons_of_neg (by rw [hc]; exact Bool.false_ne_true)]
      | true =>
          rw [List.cons_append, List.takeWhile_cons_of_pos hc]
          rcases ih with heq | ⟨n₁, d, n₂, hn, hd, heq⟩
          · exact .inl (congrArg (c :: ·) heq)
          · exact .inr ⟨c :: n₁, d, n₂, congrArg (c :: ·) hn, hd, congrArg (c :: ·) heq⟩

/-- Behind a name there is none of its characters. -/
theorem takeWhile_behind {chs c rest : Bytes} (hchs : Naming chs) (hc : Spaces c) :
    (c ++ (CLOSE ++ rest)).takeWhile (isNameChar chs) = [] := by
  have hstop : ∀ d x, isSpace d = true ∨ d = RBRACE →
      (d :: x).takeWhile (isNameChar chs) = [] := by
    intro d x hd
    apply List.takeWhile_cons_of_neg
    intro hname
    rcases hd with hd | hd
    · exact Bool.false_ne_true ((hchs d hname).1.symm.trans hd)
    · exact (hchs d hname).2 hd
  cases c with
  | nil => exact hstop RBRACE _ (.inr rfl)
  | cons d c => exact hstop d _ (.inl (hc d List.mem_cons_self))

/-- In front of a name and its closing braces, what `__toLastIndex` returns is the name. -/
theorem toLastIndex_reads {chs b name c rest : Bytes} {pos : Nat} {r : Nat × Nat × Nat}
    (hdrop : t.drop pos = b ++ (name ++ (c ++ (CLOSE ++ rest)))) (hchs : Naming chs)
    (hb : Spaces b) (hname : IsName name) (hc : Spaces c) (h : toLastIndex t chs pos = .ok r) :
    r = (pos + b.length, pos + b.length + name.length,
      pos + b.length + name.length + c.length + 2) := by
  obtain ⟨d, n, rfl, hd⟩ := hname.head
  have hs : eatSpace t pos = pos + b.length := eatSpace_of_drop hdrop hb (head_not_space hd)
  have hdropS : t.drop (pos + b.length) = d :: (n ++ (c ++ (CLOSE ++ rest))) := drop_add hdrop
  have hdropN : t.drop (pos + b.length + 1) = n ++ (c ++ (CLOSE ++ rest)) := drop_succ hdropS
  have hhead : ¬((!isAlpha d && decide (d ≠ UNDERSCORE)) = true) := by
    rcases hd with hd | rfl
    · rw [hd]; exact Bool.false_ne_true
    · decide
  unfold toLastIndex at h
  simp only [hs, peek_of_drop hdropS] at h
  rw [if_neg hhead, hdropN] at h
  rcases takeWhile_name (takeWhile_behind hchs hc) n with heq | ⟨n₁, x, n₂, rfl, hx, heq⟩
  · rw [heq] at h
    have hdropE : t.drop (pos + b.length + 1 + n.length) = c ++ (CLOSE ++ rest) := drop_add hdropN
    have hdropP := drop_add hdropE
    have he : eatSpace t (pos + b.length + 1 + n.length) = pos + b.length + 1 + n.length + c.length :=
      eatSpace_of_drop hdropE hc space_rbrace
    rw [he, peek_of_drop hdropP, peek_of_drop (drop_succ hdropP), if_neg (not_not.mpr rfl),
      if_neg (not_not.mpr rfl)] at h
    injection h with h
    have hlen : pos + b.length + (n.length + 1) = pos + b.length + 1 + n.length := by omega
    rw [← h, List.length_cons, hlen]
  · -- a character that ends the run inside of the name is no brace, so there is an exception
    rw [heq] at h
    have hmem : x ∈ d :: (n₁ ++ x :: n₂) :=
      List.mem_cons_of_mem d (List.mem_append_right n₁ List.mem_cons_self)
    rw [List.append_assoc] at hdropN
    have hdropX := drop_add hdropN
    have he : eatSpace t (pos + b.length + 1 + n₁.length) = pos + b.length + 1 + n₁.length :=
      eatSpace_of_drop (a := []) hdropX (fun _ hm => nomatch hm) (hname.chars x hmem).1
    rw [he, peek_of_drop hdropX, if_pos (hname.chars x hmem).2] at h
    nomatch h

/-! ## Tags -/

/-- From `p` to `p'` the parser has read a tag of this kind and name, which ends at `stop`. -/
structure Reads (t : Bytes) (p p' : Parser) (kind : ActionType) (name : Bytes) (stop : Nat) :
    Prop where
  pos : p'.pos = stop
  frag : p'.frag = stop
  fragments : p'.fragments = p.fragments
  actions : ∃ act, p'.actions = p.actions ++ [act] ∧ act.tag = kind ∧ tagString t act = name

theorem Parser.act_reads (p : Parser) {act : Action} {kind : ActionType} {name : Bytes} {pos : Nat}
    (hkind : act.tag = kind) (hname : tagString t act = name) :
    Reads t p (p.act act pos) kind name pos :=
  ⟨rfl, rfl, rfl, act, rfl, hkind, hname⟩

theorem tagString_reads {b name x : Bytes} {tag : ActionType} {pos n : Nat}
    (hdrop : t.drop pos = b ++ (name ++ x)) :
    tagString t ⟨tag, pos + b.length, pos + b.length + name.length, n⟩ = name :=
  drop_take_of_drop (drop_add hdrop)

section
variable {p p' : Parser} {a b name c rest : Bytes} {pos : Nat}

theorem named_reads {chs : Bytes} {tag : ActionType}
    (hdrop : t.drop pos = b ++ (name ++ (c ++ (CLOSE ++ rest)))) (hchs : Naming chs)
    (hb : Spaces b) (hname : IsName name) (hc : Spaces c) (h : named t chs p tag pos = .ok p') :
    Reads t p p' tag name (pos + b.length + name.length + c.length + 2) := by
  obtain ⟨r, hr, h⟩ := Except.ok_of_bind h
  rw [toLastIndex_reads hdrop hchs hb hname hc hr] at h
  injection h with h
  rw [← h]
  exact p.act_reads rfl (tagString_reads hdrop)

theorem opening_reads {tag : ActionType}
    (hdrop : t.drop pos = b ++ (name ++ (c ++ (CLOSE ++ rest)))) (hb : Spaces b)
    (hname : IsName name) (hc : Spaces c) (h : opening t p tag pos = .ok p') :
    Reads t p p' tag name (pos + b.length + name.length + c.length + 2) := by
  obtain ⟨q, hq, h⟩ := Except.ok_of_bind h
  have hreads := named_reads hdrop naming_names hb hname hc hq
  injection h with h
  rw [← h]
  exact ⟨hreads.pos, hreads.frag, hreads.fragments, hreads.actions⟩

theorem closing_reads (hdrop : t.drop (pos + 1) = b ++ (name ++ (c ++ (CLOSE ++ rest))))
    (hb : Spaces b) (hname : IsName name) (hc : Spaces c) (h : closing t p pos = .ok p') :
    Reads t p p' .CloseBlock name (pos + 1 + b.length + name.length + c.length + 2) := by
  unfold closing at h
  split at h
  · nomatch h
  · next i blocks _ =>
    obtain ⟨r, hr, h⟩ := Except.ok_of_bind h
    rw [toLastIndex_reads hdrop naming_names hb hname hc hr] at h
    dsimp only at h
    -- the name of the open action is the name of this one, or there is an exception
    split_ifs at h with hsame
    · nomatch h
    · injection h with h
      rw [← h]
      have hact : Reads t p (p.act ⟨.CloseBlock, pos + 1 + b.length,
          pos + 1 + b.length + name.length, i⟩ (pos + 1 + b.length + name.length + c.length + 2))
          .CloseBlock name (pos + 1 + b.length + name.length + c.length + 2) :=
        p.act_reads rfl (tagString_reads hdrop)
      exact ⟨hact.pos, hact.frag, hact.fragments, hact.actions⟩

theorem unescaped_reads (hdrop : t.drop pos = b ++ (name ++ (c ++ (CLOSE ++ ([RBRACE] ++ rest)))))
    (hb : Spaces b) (hname : IsName name) (hc : Spaces c) (h : unescaped t p pos = .ok p') :
    Reads t p p' .UnEscapeTag name (pos + b.length + name.length + c.length + 3) := by
  obtain ⟨r, hr, h⟩ := Except.ok_of_bind h
  rw [toLastIndex_reads hdrop naming_names hb hname hc hr] at h
  have hbehind := drop_add (drop_add (drop_add (drop_add hdrop)))
  have hpeek : peek t (pos + b.length + name.length + c.length + 2) = RBRACE := peek_of_drop hbehind
  dsimp only at h
  rw [hpeek, if_neg (not_not.mpr rfl)] at h
  injection h with h
  rw [← h]
  exact p.act_reads rfl (tagString_reads hdrop)

theorem commentLength_of_notMem {d : UInt8} {s x : Bytes} (h : RBRACE ∉ d :: s) :
    commentLength (d :: (s ++ RBRACE :: x)) = s.length := by
  induction s generalizing d with
  | nil => rw [List.nil_append, commentLength, if_pos (.inr rfl)]; rfl
  | cons e s ih =>
      rw [List.mem_cons, not_or] at h
      have he : e ≠ RBRACE := fun heq => h.2 (heq ▸ List.mem_cons_self)
      have hgo : ¬(d = RBRACE ∨ (e :: (s ++ RBRACE :: x)).headD NUL = RBRACE) :=
        not_or.mpr ⟨Ne.symm h.1, he⟩
      rw [List.cons_append, commentLength, if_neg hgo, ih h.2]
      rfl

theorem ignored_reads (hdrop : t.drop pos = name ++ (CLOSE ++ rest)) (hne : name ≠ [])
    (hbrace : RBRACE ∉ name) (h : ignored t p pos = .ok p') :
    Reads t p p' .Ignore name (pos + name.length + 2) := by
  obtain ⟨d, s, rfl⟩ := List.exists_cons_of_ne_nil hne
  have hlen : commentLength (t.drop pos) = s.length := by
    rw [hdrop]; exact commentLength_of_notMem hbrace
  have hpeek : peek t (pos + s.length + 1) = RBRACE := peek_of_drop (drop_add hdrop)
  unfold ignored at h
  simp only [hlen] at h
  rw [hpeek, if_neg fun hboth => hboth.2 rfl] at h
  injection h with h
  rw [← h]
  exact p.act_reads rfl (drop_take_of_drop hdrop)

end

set_option maxRecDepth 8000 in
/-- No sign is the first character of a name. -/
theorem head_no_sign {c : UInt8} (h : isAlpha c = true ∨ c = UNDERSCORE) :
    c ≠ HASH ∧ c ≠ SLASH ∧ c ≠ CARET ∧ c ≠ BANG ∧ c ≠ GT ∧ c ≠ LBRACE ∧ c ≠ AMP ∧ c ≠ EQUALS :=
  forall_byte
    (P := fun c => isAlpha c = true ∨ c = UNDERSCORE →
      c ≠ HASH ∧ c ≠ SLASH ∧ c ≠ CARET ∧ c ≠ BANG ∧ c ≠ GT ∧ c ≠ LBRACE ∧ c ≠ AMP ∧ c ≠ EQUALS)
    (by decide) c h

/-- `tok` is the sign behind the spaces. -/
theorem readTag_sign {p : Parser} {a x : Bytes} {c : UInt8}
    (hdrop : t.drop p.pos = a ++ c :: x) (ha : Spaces a) (hc : isSpace c = false) :
    eatSpace t p.pos = p.pos + a.length ∧ peek t (p.pos + a.length) = c ∧
      t.drop (p.pos + a.length + 1) = x :=
  ⟨eatSpace_of_drop hdrop ha hc, peek_of_drop (drop_add hdrop), drop_succ (drop_add hdrop)⟩

/-- A comment whose text has a character, and no closing brace. -/
def PlainComment (kind : ActionType) (name : Bytes) : Prop :=
  kind = .Ignore → name ≠ [] ∧ RBRACE ∉ name

instance (kind : ActionType) (name : Bytes) : Decidable (PlainComment kind name) :=
  inferInstanceAs (Decidable (kind = .Ignore → name ≠ [] ∧ RBRACE ∉ name))

section
variable {p p' : Parser} {name rest a b c : Bytes} {pos : Nat}

/-- The text behind the opening braces. -/
private theorem drop_opened {x y : Bytes} (hdrop : t.drop pos = OPEN ++ x ++ rest)
    (hpos : p.pos = pos + 2) (hx : x ++ rest = y) : t.drop p.pos = y := by
  rw [hpos, ← hx]
  exact drop_add (a := OPEN) (hdrop.trans (List.append_assoc OPEN x rest))

/-- A tag without a sign: all the spaces are in front of the name. -/
private theorem tag_reads
    (hdrop : t.drop p.pos = a ++ (b ++ (name ++ (c ++ (CLOSE ++ rest))))) (hname : IsName name)
    (ha : Spaces a) (hb : Spaces b) (hc : Spaces c) (h : parser_ReadTag t p = .ok p') :
    Reads t p p' .Tag name (p.pos + a.length + b.length + name.length + c.length + 2) := by
  unfold parser_ReadTag at h
  dsimp only at h
  obtain ⟨d, n, rfl, hd⟩ := hname.head
  have hspaces : Spaces (a ++ b) := fun x hx => (List.mem_append.mp hx).elim (ha x) (hb x)
  have hdropD : t.drop p.pos = (a ++ b) ++ d :: (n ++ (c ++ (CLOSE ++ rest))) := by
    rw [hdrop, List.append_assoc a b]
    rfl
  obtain ⟨he, hpeek, -⟩ := readTag_sign hdropD hspaces (head_not_space hd)
  obtain ⟨h1, h2, h3, h4, h5, h6, h7, h8⟩ := head_no_sign hd
  rw [he, hpeek, if_neg h1, if_neg h2, if_neg h3, if_neg h4, if_neg h5, if_neg h6, if_neg h7,
    if_neg h8] at h
  have hreads := named_reads (b := []) (drop_add hdropD) naming_names (fun _ hm => nomatch hm)
    hname hc h
  rw [List.length_append, ← Nat.add_assoc] at hreads
  exact hreads

/-- A tag with the sign of its kind in front of the name. -/
private theorem signed_reads {kind : ActionType} (hkind : kind ≠ .Ignore)
    (hdrop : t.drop p.pos = a ++ (sign kind ++ (b ++ (name ++ (c ++ (CLOSE ++ rest))))))
    (hname : IsName name) (ha : Spaces a) (hb : Spaces b) (hc : Spaces c)
    (h : parser_ReadTag t p = .ok p') :
    Reads t p p' kind name
      (p.pos + a.length + (sign kind).length + b.length + name.length + c.length + 2) := by
  cases kind with
  | Ignore => exact absurd rfl hkind
  | Tag => exact tag_reads hdrop hname ha hb hc h
  | OpenBlock =>
      obtain ⟨he, hpeek, hbehind⟩ := readTag_sign hdrop ha (by decide)
      unfold parser_ReadTag at h
      dsimp only at h
      rw [he, hpeek, if_pos rfl] at h
      exact opening_reads hbehind hb hname hc h
  | CloseBlock =>
      obtain ⟨he, hpeek, hbehind⟩ := readTag_sign hdrop ha (by decide)
      unfold parser_ReadTag at h
      dsimp only at h
      rw [he, hpeek, if_neg (by decide), if_pos rfl] at h
      exact closing_reads hbehind hb hname hc h
  | ElseBlock =>
      obtain ⟨he, hpeek, hbehind⟩ := readTag_sign hdrop ha (by decide)
      unfold parser_ReadTag at h
      dsimp only at h
      rw [he, hpeek, if_neg (by decide), if_neg (by decide), if_pos rfl] at h
      exact opening_reads hbehind hb hname hc h
  | Partial =>
      obtain ⟨he, hpeek, hbehind⟩ := readTag_sign hdrop ha (by decide)
      unfold parser_ReadTag at h
      dsimp only at h
      rw [he, hpeek, if_neg (by decide), if_neg (by decide), if_neg (by decide),
        if_neg (by decide), if_pos rfl] at h
      exact named_reads hbehind naming_paths hb hname hc h
  | UnEscapeTag =>
      obtain ⟨he, hpeek, hbehind⟩ := readTag_sign hdrop ha (by decide)
      unfold parser_ReadTag at h
      dsimp only at h
      rw [he, hpeek, if_neg (by decide), if_neg (by decide), if_neg (by decide),
        if_neg (by decide), if_neg (by decide), if_neg (by decide), if_pos rfl] at h
      exact named_reads hbehind naming_names hb hname hc h

private theorem triple_reads
    (hdrop : t.drop p.pos = a ++ LBRACE :: (b ++ (name ++ (c ++ (CLOSE ++ ([RBRACE] ++ rest))))))
    (hname : IsName name) (ha : Spaces a) (hb : Spaces b) (hc : Spaces c)
    (h : parser_ReadTag t p = .ok p') :
    Reads t p p' .UnEscapeTag name
      (p.pos + a.length + 1 + b.length + name.length + c.length + 3) := by
  obtain ⟨he, hpeek, hbehind⟩ := readTag_sign hdrop ha (by decide)
  unfold parser_ReadTag at h
  dsimp only at h
  rw [he, hpeek, if_neg (by decide), if_neg (by decide), if_neg (by decide),
    if_neg (by decide), if_neg (by decide), if_pos rfl] at h
  exact unescaped_reads hbehind hb hname hc h

private theorem comment_reads (hdrop : t.drop p.pos = a ++ BANG :: (name ++ (CLOSE ++ rest)))
    (hplain : PlainComment .Ignore name) (ha : Spaces a) (h : parser_ReadTag t p = .ok p') :
    Reads t p p' .Ignore name (p.pos + a.length + 1 + name.length + 2) := by
  obtain ⟨he, hpeek, hbehind⟩ := readTag_sign hdrop ha (by decide)
  unfold parser_ReadTag at h
  dsimp only at h
  rw [he, hpeek, if_neg (by decide), if_neg (by decide), if_neg (by decide), if_pos rfl] at h
  obtain ⟨hne, hbrace⟩ := hplain rfl
  exact ignored_reads hbehind hne hbrace h

/-- A tag that the reference spells is read as this tag. -/
theorem parser_ReadTag_reads {kind : ActionType} {tag : Bytes} (hdrop : t.drop pos = tag ++ rest)
    (htag : Spells kind name tag) (hplain : PlainComment kind name) (hpos : p.pos = pos + 2)
    (h : parser_ReadTag t p = .ok p') : Reads t p p' kind name (pos + tag.length) := by
  have hlen : ∀ x : Bytes, pos + (OPEN ++ x).length = p.pos + x.length := by
    intro x
    rw [List.length_append, hpos, ← Nat.add_assoc]
    rfl
  cases htag with
  | @named _ _ a b c hkind hname ha hb hc =>
      have hdrop' : t.drop p.pos = a ++ (sign kind ++ (b ++ (name ++ (c ++ (CLOSE ++ rest))))) :=
        drop_opened hdrop hpos (by simp only [List.append_assoc])
      rw [hlen]
      simp only [List.length_append, ← Nat.add_assoc]
      exact signed_reads hkind hdrop' hname ha hb hc h
  | @triple _ a b c hname ha hb hc =>
      have hdrop' : t.drop p.pos =
          a ++ LBRACE :: (b ++ (name ++ (c ++ (CLOSE ++ ([RBRACE] ++ rest))))) :=
        drop_opened hdrop hpos (by simp only [List.append_assoc, List.cons_append, List.nil_append])
      rw [hlen]
      simp only [List.length_append, ← Nat.add_assoc]
      exact triple_reads hdrop' hname ha hb hc h
  | @comment _ a ha htext =>
      have hdrop' : t.drop p.pos = a ++ BANG :: (name ++ (CLOSE ++ rest)) :=
        drop_opened hdrop hpos (by simp only [List.append_assoc, List.cons_append, List.nil_append])
      rw [hlen]
      simp only [List.length_append, ← Nat.add_assoc]
      exact comment_reads hdrop' hplain ha h

end

/-! ## The loop -/

theorem Spells.opens {kind : ActionType} {name tag : Bytes} (h : Spells kind name tag) :
    ∃ inner, tag = OPEN ++ inner := by
  cases h with
  | named hkind hname ha hb hc => exact ⟨_, rfl⟩
  | triple hname ha hb hc => exact ⟨_, rfl⟩
  | comment ha htext => exact ⟨_, rfl⟩

theorem peek_eq_headD (t : Bytes) (pos : Nat) : peek t pos = (t.drop pos).headD NUL := by
  rw [peek, List.getD_eq_getElem?_getD, List.headD_eq_head?_getD, List.head?_drop]

theorem free_cons {c : UInt8} {x : Bytes} (h : Free OPEN (c :: x)) :
    ¬(c = LBRACE ∧ x.headD NUL = LBRACE) ∧ Free OPEN x := by
  constructor
  · rintro ⟨rfl, hx⟩
    cases x with
    | nil => exact absurd hx (by decide)
    | cons d x =>
        cases (show d = LBRACE from hx)
        exact h [] x rfl
  · intro a b hx
    exact h (c :: a) b (congrArg (c :: ·) hx)

theorem headD_take_one (s x : Bytes) :
    (s ++ x.take 1).headD NUL = (s ++ x).headD NUL := by
  cases s with
  | nil => cases x <;> rfl
  | cons c s => rfl

theorem parseLoop_end {fuel : Nat} {p : Parser} (h : t.length ≤ p.pos) :
    parseLoop t fuel p = .ok p := by
  unfold parseLoop
  exact if_pos h

/-- The loop goes through a text that no tag starts in. -/
theorem parseLoop_text {fuel : Nat} {p q : Parser} {text x : Bytes}
    (hdrop : t.drop p.pos = text ++ x) (hfree : Free OPEN (text ++ x.take 1))
    (h : parseLoop t fuel p = .ok q) :
    ∃ fuel', parseLoop t fuel' { p with pos := p.pos + text.length } = .ok q := by
  induction text generalizing p fuel with
  | nil => exact ⟨fuel, h⟩
  | cons c s ih =>
      have hdrop' : t.drop p.pos = c :: (s ++ x) := hdrop
      obtain ⟨hno, hfree⟩ := free_cons hfree
      have hno' : ¬(peek t p.pos = LBRACE ∧ peek t (p.pos + 1) = LBRACE) := by
        rw [peek_of_drop hdrop', peek_eq_headD, drop_succ hdrop', ← headD_take_one]
        exact hno
      cases fuel with
      | zero =>
          rw [parseLoop, if_neg (Nat.not_le_of_lt (lt_of_drop hdrop))] at h
          nomatch h
      | succ fuel =>
          rw [parseLoop, if_neg (Nat.not_le_of_lt (lt_of_drop hdrop)), if_neg hno'] at h
          obtain ⟨fuel', h⟩ := ih (p := { p with pos := p.pos + 1 }) (drop_succ hdrop) hfree h
          refine ⟨fuel', ?_⟩
          rw [List.length_cons, Nat.add_comm s.length 1, ← Nat.add_assoc]
          exact h

/-- The loop reads a tag, and the text in front of it is a fragment. -/
theorem parseLoop_tag {fuel : Nat} {p q : Parser} {kind : ActionType} {tag name rest : Bytes}
    (hdrop : t.drop p.pos = tag ++ rest) (htag : Spells kind name tag)
    (hplain : PlainComment kind name) (h : parseLoop t fuel p = .ok q) :
    ∃ fuel' p', Reads t { p with fragments := p.fragments ++ [(p.frag, p.pos)], pos := p.pos + 2 } p'
        kind name (p.pos + tag.length) ∧ parseLoop t fuel' p' = .ok q := by
  obtain ⟨inner, htag'⟩ := htag.opens
  have hdropO : t.drop p.pos = LBRACE :: (LBRACE :: (inner ++ rest)) := by
    rw [hdrop, htag', List.append_assoc]
    rfl
  cases fuel with
  | zero =>
      rw [parseLoop, if_neg (Nat.not_le_of_lt (lt_of_drop hdropO))] at h
      nomatch h
  | succ fuel =>
      rw [parseLoop, if_neg (Nat.not_le_of_lt (lt_of_drop hdropO)),
        if_pos ⟨peek_of_drop hdropO, peek_of_drop (drop_succ hdropO)⟩] at h
      obtain ⟨p', hp', h⟩ := Except.ok_of_bind h
      exact ⟨fuel, p', parser_ReadTag_reads hdrop htag hplain rfl hp', h⟩

/-- From the index `i` on, the fragments and the actions are these pieces and the text `last`. -/
structure Describes (m : Template) (i : Nat) (pieces : List Piece) (last : Bytes) : Prop where
  texts : (m.fragments.drop i).map (fragString m.body) =
    pieces.map (·.text) ++ (if last = [] then [] else [last])
  tags : (m.actions.drop i).map (fun a => (a.tag, tagString m.body a)) =
    pieces.map fun x => (x.kind, x.name)

/-- What the loop leaves of a template that the reference makes of these pieces. -/
private theorem parseLoop_lexed {s last : Bytes} {pieces : List Piece} {q : Parser}
    (hlex : Lexed s pieces last) (hplain : ∀ x ∈ pieces, PlainComment x.kind x.name) {fuel : Nat}
    {p : Parser} (hdrop : t.drop p.pos = s) (hfrag : p.frag = p.pos)
    (h : parseLoop t fuel p = .ok q) :
    ∃ frags acts, q.fragments = p.fragments ++ frags ∧ q.actions = p.actions ++ acts ∧
      frags.map (fragString t) = pieces.map (·.text) ∧
      acts.map (fun a => (a.tag, tagString t a)) = pieces.map (fun x => (x.kind, x.name)) ∧
      t.drop q.frag = last ∧ q.pos = q.frag + last.length := by
  -- on the lexing; what is in front of a tag is a fragment, also when it is empty
  induction hlex generalizing p fuel with
  | @last text htext =>
      have hfree : Free OPEN (text ++ ([] : Bytes).take 1) := by
        rw [List.take_nil, List.append_nil]; exact htext
      obtain ⟨fuel', h⟩ := parseLoop_text (hdrop.trans (List.append_nil text).symm) hfree h
      have hlen : t.length ≤ p.pos + text.length := by
        rw [← hdrop, List.length_drop]
        omega
      rw [parseLoop_end hlen] at h
      injection h with h
      subst h
      exact ⟨[], [], (List.append_nil _).symm, (List.append_nil _).symm, rfl, rfl,
        hfrag ▸ hdrop, congrArg (· + text.length) hfrag.symm⟩
  | @piece text tag name rest last kind pieces htext htag hrest ih =>
      obtain ⟨inner, htag'⟩ := htag.opens
      have hfree : Free OPEN (text ++ (tag ++ rest).take 1) := by rw [htag']; exact htext
      obtain ⟨fuel, h⟩ := parseLoop_text hdrop hfree h
      obtain ⟨fuel, p', hreads, h⟩ := parseLoop_tag
        (p := { p with pos := p.pos + text.length }) (drop_add hdrop) htag
        (hplain _ List.mem_cons_self) h
      have hdrop' : t.drop p'.pos = rest := by
        rw [hreads.pos]
        exact drop_add (drop_add hdrop)
      obtain ⟨frags, acts, hfrags, hacts, htexts, htags, hend⟩ := ih
        (fun x hx => hplain x (List.mem_cons_of_mem _ hx)) hdrop'
        (hreads.frag.trans hreads.pos.symm) h
      obtain ⟨act, hact, hkind, hname⟩ := hreads.actions
      refine ⟨(p.frag, p.pos + text.length) :: frags, act :: acts, ?_, ?_, ?_, ?_, hend⟩
      · rw [hfrags, hreads.fragments, List.append_assoc]
        rfl
      · rw [hacts, hact, List.append_assoc]
        rfl
      · have htext : fragString t (p.frag, p.pos + text.length) = text := by
          rw [hfrag]
          exact drop_take_of_drop hdrop
        rw [List.map_cons, List.map_cons, htexts, htext]
      · rw [List.map_cons, List.map_cons, htags, hkind, hname]

/-! ## Inverted sections -/

/-- An inverted section ends at once. -/
def Ends (b a : ActionType) : Prop := b = .ElseBlock → a = .CloseBlock

theorem checkElse_ends {acts : List Action} (h : checkElse t acts = .ok ()) :
    (acts.map (·.tag)).IsChain Ends := by
  fun_induction checkElse t acts with
  | case1 b a acts hbad => nomatch h
  | case2 b a acts hgood ih =>
      rw [not_and, not_not] at hgood
      exact List.isChain_cons_cons.mpr ⟨hgood, ih h⟩
  | case3 acts hshort =>
      match acts, hshort with
      | [], _ => exact .nil
      | [a], _ => exact .singleton a.tag
      | b :: a :: acts, hshort => exact absurd rfl (hshort b a acts)

private theorem flat_of_ends_append {f : Forest} {kinds : List ActionType}
    (h : (f.pieces.map (·.kind) ++ kinds).IsChain Ends) : f.Flat := by
  induction f generalizing kinds with
  | nil => exact trivial
  | leaf text tag name rest ih => exact ih h.tail
  | block text inverted name body post rest ihbody ihrest =>
      rw [Forest.pieces, List.map_cons, List.map_append, List.map_cons, List.cons_append,
        List.append_assoc, List.cons_append] at h
      refine ⟨?_, ihbody h.tail, ihrest h.tail.right_of_append.tail⟩
      rintro rfl
      -- the tag behind the opening one would not be the closing one
      cases body with
      | nil => rfl
      | leaf text tag name rest =>
          have hclose := (List.isChain_cons_cons.mp h).1 rfl
          cases tag <;> nomatch hclose
      | block text inverted name body post rest =>
          have hclose := (List.isChain_cons_cons.mp h).1 rfl
          cases inverted <;> nomatch hclose

theorem flat_of_ends {f : Forest} (h : (f.pieces.map (·.kind)).IsChain Ends) : f.Flat := by
  rw [← List.append_nil (f.pieces.map _)] at h
  exact flat_of_ends_append h

private theorem lexed_nil {pieces : List Piece} {last : Bytes} (h : Lexed [] pieces last) :
    pieces = [] ∧ last = [] := by
  generalize hs : ([] : Bytes) = s at h
  cases h with
  | last htext => exact ⟨rfl, rfl⟩
  | piece htext htag hrest =>
      obtain ⟨inner, rfl⟩ := htag.opens
      have hlen := congrArg List.length hs
      simp only [List.length_append, OPEN, List.length_cons, List.length_nil] at hlen
      omega

/-- What `parse` accepts is described by the pieces that the reference makes of it. -/
theorem parse_describes {m : Template} {pieces : List Piece} {last : Bytes}
    (hlex : Lexed t pieces last) (hplain : ∀ x ∈ pieces, PlainComment x.kind x.name)
    (h : parse t = .ok m) :
    Describes m 0 pieces last ∧ (pieces.map (·.kind)).IsChain Ends := by
  unfold parse at h
  split_ifs at h with hnil
  · subst hnil
    obtain ⟨rfl, rfl⟩ := lexed_nil hlex
    injection h with h
    subst h
    exact ⟨⟨rfl, rfl⟩, .nil⟩
  · obtain ⟨q, hq, h⟩ := Except.ok_of_bind h
    obtain ⟨frags, acts, hfrags, hacts, htexts, htags, hdrop, hpos⟩ :=
      parseLoop_lexed hlex hplain (p := ⟨0, 0, [], [], []⟩) List.drop_zero rfl hq
    have hends : checkElse t acts = .ok () → (pieces.map (·.kind)).IsChain Ends := by
      intro helse
      have hkinds := congrArg (List.map Prod.fst) htags
      rw [List.map_map, List.map_map] at hkinds
      exact hkinds ▸ checkElse_ends helse
    rw [List.nil_append] at hfrags hacts
    split_ifs at h with hblocks hlast
    · nomatch h
    · obtain ⟨_, helse, h⟩ := Except.ok_of_bind h
      injection h with h
      subst h
      have hne : last ≠ [] := fun hempty => hlast (by rw [hpos, hempty]; rfl)
      have htext : fragString t (q.frag, q.pos) = last := by
        rw [fragString, hdrop, hpos, Nat.add_sub_cancel_left, List.take_length]
      refine ⟨⟨?_, ?_⟩, hends (hacts ▸ helse)⟩
      · rw [List.drop_zero, List.map_append, hfrags, htexts, if_neg hne, List.map_singleton, htext]
      · rw [List.drop_zero, hacts, htags]
    · obtain ⟨_, helse, h⟩ := Except.ok_of_bind h
      injection h with h
      subst h
      have hempty : last = [] := by
        rw [not_not, hpos] at hlast
        exact List.eq_nil_of_length_eq_zero (Nat.add_eq_left.mp hlast)
      refine ⟨⟨?_, ?_⟩, hends (hacts ▸ helse)⟩
      · rw [List.drop_zero, hfrags, htexts, if_pos hempty, List.append_nil]
      · rw [List.drop_zero, hacts, htags]

/-! ## Fuel -/

section
variable {α β : Type}

/-- Not out of fuel, and behind `pos` at the end. -/
def Advances (stop : α → Nat) (pos : Nat) : Except ParseFault α → Prop
  | .ok a => pos ≤ stop a
  | .error e => e ≠ .outOfFuel

theorem Advances.bind {stop : α → Nat} {stop' : β → Nat} {pos : Nat} {x : Except ParseFault α}
    {k : α → Except ParseFault β} (hx : Advances stop pos x)
    (hk : ∀ a, pos ≤ stop a → Advances stop' pos (k a)) : Advances stop' pos (x >>= k) := by
  cases x with
  | error e => exact hx
  | ok a => exact hk a hx

theorem advances_throw (stop : α → Nat) (pos : Nat) (parts : List Bytes) :
    Advances stop pos (throwText parts) := fun h => nomatch h

end

theorem le_eatSpace (t : Bytes) (pos : Nat) : pos ≤ eatSpace t pos := Nat.le_add_right _ _

theorem toLastIndex_advances (t chs : Bytes) (pos : Nat) :
    Advances (·.2.2) pos (toLastIndex t chs pos) := by
  unfold toLastIndex
  dsimp only
  split_ifs
  · exact advances_throw _ _ _
  · exact advances_throw _ _ _
  · exact advances_throw _ _ _
  · refine (le_eatSpace t pos).trans (Nat.le_add_right_of_le ?_)
    exact le_trans (by omega) (le_eatSpace t _)

theorem named_advances (t chs : Bytes) (p : Parser) (tag : ActionType) (pos : Nat) :
    Advances (·.pos) pos (named t chs p tag pos) :=
  (toLastIndex_advances t chs pos).bind fun _ h => h

theorem opening_advances (t : Bytes) (p : Parser) (tag : ActionType) (pos : Nat) :
    Advances (·.pos) pos (opening t p tag pos) :=
  (named_advances t [UNDERSCORE] p tag pos).bind fun _ h => h

theorem closing_advances (t : Bytes) (p : Parser) (pos : Nat) :
    Advances (·.pos) (pos + 1) (closing t p pos) := by
  unfold closing
  split
  · exact advances_throw _ _ _
  · refine (toLastIndex_advances t [UNDERSCORE] (pos + 1)).bind fun r h => ?_
    dsimp only
    split_ifs
    · exact advances_throw _ _ _
    · exact h

theorem ignored_advances (t : Bytes) (p : Parser) (pos : Nat) :
    Advances (·.pos) pos (ignored t p pos) := by
  unfold ignored
  dsimp only
  split_ifs
  · exact advances_throw _ _ _
  · exact Nat.le_add_right_of_le (Nat.le_add_right _ _)

theorem unescaped_advances (t : Bytes) (p : Parser) (pos : Nat) :
    Advances (·.pos) pos (unescaped t p pos) := by
  refine (toLastIndex_advances t [UNDERSCORE] pos).bind fun r h => ?_
  dsimp only
  split_ifs
  · exact advances_throw _ _ _
  · exact Nat.le_add_right_of_le h

theorem Advances.mono {α : Type} {stop : α → Nat} {pos pos' : Nat} {x : Except ParseFault α}
    (h : Advances stop pos x) (hle : pos' ≤ pos) : Advances stop pos' x := by
  cases x with
  | error e => exact h
  | ok a => exact hle.trans h

theorem parser_ReadTag_advances (t : Bytes) (p : Parser) :
    Advances (·.pos) p.pos (parser_ReadTag t p) := by
  have hle := le_eatSpace t p.pos
  have hlt : p.pos ≤ eatSpace t p.pos + 1 := Nat.le_succ_of_le hle
  unfold parser_ReadTag
  dsimp only
  split_ifs
  · exact (opening_advances t p _ _).mono hlt
  · exact (closing_advances t p _).mono hlt
  · exact (opening_advances t p _ _).mono hlt
  · exact (ignored_advances t p _).mono hlt
  · exact (named_advances t _ p _ _).mono hlt
  · exact (unescaped_advances t p _).mono hlt
  · exact (named_advances t _ p _ _).mono hlt
  · exact advances_throw _ _ _
  · exact (named_advances t _ p _ _).mono hle

/-- Every turn of the loop goes on by a byte, so the length of the template is enough fuel. -/
theorem parseLoop_advances {fuel : Nat} {p : Parser} (h : t.length ≤ p.pos + fuel) :
    Advances (·.pos) p.pos (parseLoop t fuel p) := by
  induction fuel generalizing p with
  | zero =>
      rw [parseLoop_end h]
      exact Nat.le_refl p.pos
  | succ fuel ih =>
      rw [parseLoop]
      split_ifs
      · exact Nat.le_refl p.pos
      · have htag := parser_ReadTag_advances t
          { p with fragments := p.fragments ++ [(p.frag, p.pos)], pos := p.pos + 2 }
        have hlt : p.pos ≤ p.pos + 2 := Nat.le_add_right _ _
        refine Advances.mono (htag.bind fun p' hp' => ?_) hlt
        have hfuel : t.length ≤ p'.pos + fuel := by
          dsimp only at hp'
          omega
        exact (ih hfuel).mono hp'
      · have hlt : p.pos ≤ p.pos + 1 := Nat.le_succ _
        exact (ih (p := { p with pos := p.pos + 1 }) (by dsimp only; omega)).mono hlt

theorem checkElse_advances (t : Bytes) (acts : List Action) :
    Advances (fun _ => 0) 0 (checkElse t acts) := by
  fun_induction checkElse t acts with
  | case1 b a acts hbad => exact advances_throw _ _ _
  | case2 b a acts hgood ih => exact ih
  | case3 acts hshort => exact Nat.le_refl 0

/-- Parsing never runs out of fuel. -/
theorem parse_total (t : Bytes) : parse t ≠ .error .outOfFuel := by
  have hadv : Advances (fun _ => 0) 0 (parse t) := by
    unfold parse
    split_ifs
    · exact Nat.le_refl 0
    · have hloop : t.length ≤ 0 + t.length := Nat.le_of_eq (Nat.zero_add _).symm
      refine (parseLoop_advances hloop).bind fun p _ => ?_
      split_ifs
      · exact advances_throw _ _ _
      · exact (checkElse_advances t p.actions).bind fun _ _ => Nat.le_refl 0
      · exact (checkElse_advances t p.actions).bind fun _ _ => Nat.le_refl 0
  intro h
  rw [h] at hadv
  exact hadv rfl

end Suil.Mustache
