import Mathlib
import Suil.Mustache.Accepting

set_option autoImplicit false

/-! # Well-nested templates

`parse` keeps the indices of the open sections on a stack. `nest` is this stack machine on the pieces
of a template, `nest_pieces` and `nest_splits` say that it accepts the pieces of forests, and
`parse_wellNested_iff` that `parse` accepts the templates that are well nested, as long as their
comments are plain. -/

namespace Suil.Mustache

variable {t : Bytes}

/-! ## Well-nested templates -/

def Piece.Valid (x : Piece) : Prop := x.kind ≠ .Ignore → ValidName (nameChars x.kind) x.name

/-- The template consists of texts and tags with valid names, the sections are closed by their own
names in order, and the inverted ones have no tags inside. -/
structure WellNested (t : Bytes) (f : Forest) (last : Bytes) : Prop where
  lexed : Lexed t f.pieces last
  valid : ∀ x ∈ f.pieces, x.Valid
  flat : f.Flat

/-- The `pos` of the actions, from the index `k` on: a close action has the index of its own open
action. -/
def Forest.targets (k : Nat) : Forest → List Nat
  | .nil => []
  | .leaf _ _ _ rest => 0 :: rest.targets (k + 1)
  | .block _ _ _ body _ rest =>
      0 :: (body.targets (k + 1) ++
        k :: rest.targets (k + 1 + body.pieces.length + 1))

/-- The text behind the sign of a comment has no closing brace, or its first ones are two in a row
behind some other character. -/
def PlainBehind (body : Bytes) : Prop :=
  RBRACE ∉ body ∨ ∃ x y, body = x ++ (CLOSE ++ y) ∧ x ≠ [] ∧ RBRACE ∉ x

/-- Every comment behind texts and tags is plain. -/
def CommentsPlain (t : Bytes) : Prop :=
  ∀ done pieces text a body, t = done ++ (text ++ (OPEN ++ (a ++ BANG :: body))) →
    Lexed done pieces [] → (∀ x ∈ pieces, x.Valid) → Free OPEN (text ++ [LBRACE]) → Spaces a →
      PlainBehind body

/-! ## The stack -/

/-- The stack after a tag, which is the action number `k`, and the `pos` of the action. The open
sections are on the stack with their numbers and names. -/
def nestStep (k : Nat) (stack : List (Nat × Bytes)) (kind : ActionType) (name : Bytes) :
    Option (List (Nat × Bytes) × Nat) :=
  match kind with
  | .OpenBlock | .ElseBlock => some ((k, name) :: stack, 0)
  | .CloseBlock =>
      match stack with
      | [] => none
      | (b, openName) :: stack => if openName = name then some (stack, b) else none
  | _ => some (stack, 0)

/-- The `pos` of all actions, when every section is closed in the end. -/
def nest (k : Nat) (stack : List (Nat × Bytes)) : List Piece → Option (List Nat)
  | [] => if stack = [] then some [] else none
  | x :: xs => do
      let (stack, target) ← nestStep k stack x.kind x.name
      let targets ← nest (k + 1) stack xs
      some (target :: targets)

theorem nestStep_leaf (k : Nat) (stack : List (Nat × Bytes)) (tag : Leaf) (name : Bytes) :
    nestStep k stack tag.kind name = some (stack, 0) := by
  cases tag <;> rfl

theorem nestStep_opener (k : Nat) (stack : List (Nat × Bytes)) (inverted : Bool) (name : Bytes) :
    nestStep k stack (Forest.opener inverted) name = some ((k, name) :: stack, 0) := by
  cases inverted <;> rfl

/-- A forest leaves the stack as it was. -/
theorem nest_pieces (f : Forest) (k : Nat) (stack : List (Nat × Bytes)) (xs : List Piece) :
    nest k stack (f.pieces ++ xs) =
      (nest (k + f.pieces.length) stack xs).map (f.targets k ++ ·) := by
  induction f generalizing k stack xs with
  | nil => exact Option.map_id'.symm
  | leaf text tag name rest ih =>
      rw [Forest.pieces, List.cons_append, nest, nestStep_leaf]
      simp only [Option.bind_eq_bind, Option.bind_some]
      rw [ih, List.length_cons, Nat.add_comm rest.pieces.length 1, ← Nat.add_assoc]
      cases nest (k + 1 + rest.pieces.length) stack xs <;> rfl
  | block text inverted name body post rest ihbody ihrest =>
      have hlen : k + (Forest.block text inverted name body post rest).pieces.length =
          k + 1 + body.pieces.length + 1 + rest.pieces.length := by
        rw [Forest.pieces, List.length_cons, List.length_append, List.length_cons]
        omega
      rw [hlen, Forest.pieces, List.cons_append, List.append_assoc, List.cons_append, nest,
        nestStep_opener]
      dsimp only
      simp only [Option.bind_eq_bind, Option.bind_some]
      rw [ihbody, nest, nestStep, if_pos rfl]
      simp only [Option.bind_eq_bind, Option.bind_some]
      rw [ihrest]
      cases nest (k + 1 + body.pieces.length + 1 + rest.pieces.length) stack xs with
      | none => rfl
      | some ts =>
          simp only [Option.map_some, Option.bind_some, Forest.targets, List.cons_append,
            List.append_assoc]

/-- What the machine accepts with an empty stack is a forest; else there is one in front of the tag
that closes the innermost section. -/
theorem nest_splits (xs : List Piece) (k : Nat) (stack : List (Nat × Bytes)) (ts : List Nat)
    (h : nest k stack xs = some ts) : ∃ f : Forest, (stack = [] ∧ xs = f.pieces) ∨
      ∃ b name st text rest k' ts', stack = (b, name) :: st ∧
        xs = f.pieces ++ ⟨text, .CloseBlock, name⟩ :: rest ∧ nest k' st rest = some ts' := by
  induction hn : xs.length using Nat.strong_induction_on generalizing xs k stack ts with
  | _ n ih =>
  cases xs with
  | nil =>
      rw [nest] at h
      split_ifs at h with hstack
      exact ⟨.nil, .inl ⟨hstack, rfl⟩⟩
  | cons x xs =>
      obtain ⟨text, kind, name⟩ := x
      rw [nest] at h
      obtain ⟨⟨stack', target⟩, hstep, h⟩ := Option.bind_eq_some_iff.mp h
      obtain ⟨ts', hrest, -⟩ := Option.bind_eq_some_iff.mp h
      have hlt : xs.length < n := by
        rw [← hn, List.length_cons]
        exact Nat.lt_succ_self _
      dsimp only at hstep hrest
      -- a tag that is no section
      have hleaf : ∀ tag : Leaf, kind = tag.kind → ∃ f : Forest,
          (stack = [] ∧ (⟨text, kind, name⟩ : Piece) :: xs = f.pieces) ∨
          ∃ b nm st txt rest k' ts', stack = (b, nm) :: st ∧ (⟨text, kind, name⟩ : Piece) :: xs =
            f.pieces ++ ⟨txt, .CloseBlock, nm⟩ :: rest ∧ nest k' st rest = some ts' := by
        rintro tag rfl
        rw [nestStep_leaf] at hstep
        cases hstep
        obtain ⟨f, ⟨hstack, rfl⟩ | ⟨b, nm, st, txt, rest, k', ts'', hstack, rfl, hnest⟩⟩ :=
          ih _ hlt xs _ _ _ hrest rfl
        · exact ⟨.leaf text tag name f, .inl ⟨hstack, rfl⟩⟩
        · exact ⟨.leaf text tag name f, .inr ⟨b, nm, st, txt, rest, k', ts'', hstack, rfl, hnest⟩⟩
      -- a section: the inside, and what is behind it
      have hblock : ∀ inverted, kind = Forest.opener inverted → ∃ f : Forest,
          (stack = [] ∧ (⟨text, kind, name⟩ : Piece) :: xs = f.pieces) ∨
          ∃ b nm st txt rest k' ts', stack = (b, nm) :: st ∧ (⟨text, kind, name⟩ : Piece) :: xs =
            f.pieces ++ ⟨txt, .CloseBlock, nm⟩ :: rest ∧ nest k' st rest = some ts' := by
        rintro inverted rfl
        rw [nestStep_opener] at hstep
        cases hstep
        obtain ⟨body, ⟨hstack, -⟩ | ⟨b, nm, st, post, rest, k', ts'', hstack, rfl, hnest⟩⟩ :=
          ih _ hlt xs _ _ _ hrest rfl
        · cases hstack
        cases hstack
        have hlt' : rest.length < n := by
          rw [List.length_append, List.length_cons] at hlt
          omega
        obtain ⟨f, ⟨hstack, rfl⟩ | ⟨b, nm, st, txt, rest', k'', ts₃, hstack, rfl, hnest'⟩⟩ :=
          ih _ hlt' rest _ _ _ hnest rfl
        · exact ⟨.block text inverted name body post f, .inl ⟨hstack, rfl⟩⟩
        · refine ⟨.block text inverted name body post f,
            .inr ⟨b, nm, st, txt, rest', k'', ts₃, hstack, ?_, hnest'⟩⟩
          rw [Forest.pieces, List.cons_append, List.append_assoc, List.cons_append]
      cases kind with
      | Ignore => exact hleaf .comment rfl
      | Tag => exact hleaf .escaped rfl
      | UnEscapeTag => exact hleaf .raw rfl
      | Partial => exact hleaf .included rfl
      | OpenBlock => exact hblock false rfl
      | ElseBlock => exact hblock true rfl
      | CloseBlock =>
          unfold nestStep at hstep
          cases stack with
          | nil => cases hstep
          | cons top stack =>
              obtain ⟨b, openName⟩ := top
              dsimp only at hstep
              split_ifs at hstep with hname
              cases hstep
              exact ⟨.nil, .inr ⟨_, _, _, text, xs, _, _, rfl, by rw [hname]; rfl, hrest⟩⟩

/-- The machine accepts the pieces of forests. -/
theorem nest_eq_some_iff (xs : List Piece) (ts : List Nat) :
    nest 0 [] xs = some ts ↔ ∃ f : Forest, f.pieces = xs ∧ f.targets 0 = ts := by
  have hpieces : ∀ f : Forest, nest 0 [] f.pieces = some (f.targets 0) := by
    intro f
    rw [← List.append_nil f.pieces, nest_pieces, nest, if_pos rfl, Option.map_some,
      List.append_nil]
  constructor
  · intro h
    obtain ⟨f, ⟨-, rfl⟩ | ⟨b, nm, st, txt, rest, k', ts', hstack, -⟩⟩ := nest_splits xs _ _ _ h
    · exact ⟨f, rfl, Option.some.inj ((hpieces f).symm.trans h)⟩
    · nomatch hstack
  · rintro ⟨f, rfl, rfl⟩
    exact hpieces f

/-! ## The parser has this stack -/

/-- The numbers and the names of the open sections. -/
def Parser.stack (t : Bytes) (p : Parser) : List (Nat × Bytes) :=
  p.blocks.map fun b => (b, tagString t (p.actions.getD b ⟨.Ignore, 0, 0, 0⟩))

/-- The open sections are those of actions that there are. -/
def Parser.Bounded (p : Parser) : Prop := ∀ b ∈ p.blocks, b < p.actions.length

/-- The parser with one more action. -/
structure Pushed (t : Bytes) (p p' : Parser) (act : Action) (stack : List (Nat × Bytes)) : Prop where
  actions : p'.actions = p.actions ++ [act]
  stack : p'.stack t = stack
  bounded : p'.Bounded

private theorem stack_concat {p : Parser} (act : Action) {blocks : List Nat}
    (h : ∀ b ∈ blocks, b < p.actions.length) :
    blocks.map (fun b => (b, tagString t ((p.actions ++ [act]).getD b ⟨.Ignore, 0, 0, 0⟩))) =
      blocks.map fun b => (b, tagString t (p.actions.getD b ⟨.Ignore, 0, 0, 0⟩)) := by
  apply List.map_congr_left
  intro b hb
  rw [List.getD_append _ _ _ _ (h b hb)]

/-- A tag is read when the stack allows it, and the stack follows. -/
theorem push_nest {p : Parser} (hp : p.Bounded) {kind : ActionType} {first last : Nat} (stop : Nat)
    {name : Bytes} (hname : ∀ n, tagString t ⟨kind, first, last, n⟩ = name) :
    (∀ stack target, nestStep p.actions.length (p.stack t) kind name = some (stack, target) →
      ∃ p', p.push t kind first last stop = some p' ∧
        Pushed t p p' ⟨kind, first, last, target⟩ stack) ∧
      (nestStep p.actions.length (p.stack t) kind name = none →
        p.push t kind first last stop = none) := by
  have hold : ∀ b ∈ p.blocks, b < (p.actions ++ [(⟨kind, first, last, 0⟩ : Action)]).length := by
    intro b hb
    have := hp b hb
    rw [List.length_append]
    omega
  -- a tag that opens nothing leaves the stack
  have hleaf : ∀ stack target, some (p.stack t, 0) = some (stack, target) →
      Pushed t p (p.act ⟨kind, first, last, 0⟩ stop) ⟨kind, first, last, target⟩ stack := by
    rintro stack target ⟨⟩
    exact ⟨rfl, stack_concat _ hp, hold⟩
  -- one that opens a section is put on top, with its own place in the list
  have hopener : ∀ stack target,
      some ((p.actions.length, name) :: p.stack t, 0) = some (stack, target) →
      Pushed t p { p.act ⟨kind, first, last, 0⟩ stop with blocks := p.actions.length :: p.blocks }
        ⟨kind, first, last, target⟩ stack := by
    rintro stack target ⟨⟩
    refine ⟨rfl, ?_, ?_⟩
    · show (_, _) :: List.map _ _ = _
      congr 1
      · congr 1
        show tagString t ((p.actions ++ [(⟨kind, first, last, 0⟩ : Action)]).getD p.actions.length _) =
          name
        rw [List.getD_eq_getElem?_getD, List.getElem?_concat_length]
        exact hname 0
      · exact stack_concat _ hp
    · rintro b hb
      rcases List.mem_cons.mp hb with rfl | hb
      · show _ < (p.actions ++ [_]).length
        rw [List.length_append]
        exact Nat.lt_succ_self _
      · exact hold b hb
  cases kind with
  | Ignore => exact ⟨fun stack target h => ⟨_, rfl, hleaf stack target h⟩, nofun⟩
  | Tag => exact ⟨fun stack target h => ⟨_, rfl, hleaf stack target h⟩, nofun⟩
  | UnEscapeTag => exact ⟨fun stack target h => ⟨_, rfl, hleaf stack target h⟩, nofun⟩
  | Partial => exact ⟨fun stack target h => ⟨_, rfl, hleaf stack target h⟩, nofun⟩
  | OpenBlock => exact ⟨fun stack target h => ⟨_, rfl, hopener stack target h⟩, nofun⟩
  | ElseBlock => exact ⟨fun stack target h => ⟨_, rfl, hopener stack target h⟩, nofun⟩
  -- one that closes a section takes the top off when the names are equal
  | CloseBlock =>
      unfold nestStep Parser.push
      rw [Parser.stack]
      rw [Parser.Bounded] at hp
      cases hblocks : p.blocks with
      | nil => exact ⟨nofun, fun _ => rfl⟩
      | cons b blocks =>
          rw [hblocks] at hp
          rw [List.map_cons]
          dsimp only
          rw [hname b]
          have hrest : ∀ b ∈ blocks, b < p.actions.length := fun b hb =>
            hp b (List.mem_cons_of_mem _ hb)
          split_ifs with hsame
          · refine ⟨?_, nofun⟩
            rintro stack target ⟨⟩
            refine ⟨_, rfl, rfl, stack_concat _ hrest, fun b hb => ?_⟩
            show _ < (p.actions ++ [_]).length
            have := hrest b hb
            rw [List.length_append]
            omega
          · exact ⟨nofun, fun _ => rfl⟩

/-! ## One tag -/

theorem free_close {x : Bytes} (h : RBRACE ∉ x) : Free CLOSE (x ++ [RBRACE]) := by
  intro a b hab
  induction x generalizing a with
  | nil =>
      have hlen := congrArg List.length hab
      simp only [List.length_append, CLOSE, List.length_cons, List.length_nil] at hlen
      omega
  | cons c x ih =>
      rw [List.mem_cons, not_or] at h
      cases a with
      | nil => exact h.1 (List.cons.inj hab).1.symm
      | cons d a => exact ih h.2 a (List.cons.inj hab).2

/-- The parser has read a tag, as the piece that it is. -/
structure Took (t : Bytes) (p p' : Parser) (kind : ActionType) (name tag : Bytes) : Prop where
  act : ∃ act stack, act.tag = kind ∧ tagString t act = name ∧
    nestStep p.actions.length (p.stack t) kind name = some (stack, act.pos) ∧
    Pushed t p p' act stack
  pos : p'.pos + 2 = p.pos + tag.length

private theorem comment_took {p : Parser} {a x y : Bytes} (hp : p.Bounded)
    (hdrop : t.drop p.pos = a ++ BANG :: (x ++ (CLOSE ++ y))) (ha : Spaces a) (hx : x ≠ [])
    (hbrace : RBRACE ∉ x) :
    ∃ p', parser_ReadTag t p = .ok p' ∧
      Took t p p' .Ignore x (OPEN ++ (a ++ [BANG] ++ x ++ CLOSE)) := by
  have hbody : t.drop (p.pos + a.length + 1) = x ++ RBRACE :: (RBRACE :: y) :=
    drop_succ (drop_add hdrop)
  have hlen : max x.length 1 = x.length :=
    max_eq_left (List.length_pos_iff.mpr hx)
  rw [readTag_comment hdrop ha, ignored_eq hbody hbrace, hlen]
  refine ⟨_, rfl, ⟨⟨.Ignore, p.pos + a.length + 1, p.pos + a.length + 1 + x.length, 0⟩, p.stack t,
    rfl, drop_take_of_drop hbody, rfl, rfl, stack_concat _ hp, ?_⟩, ?_⟩
  · intro b hb
    show _ < (p.actions ++ [_]).length
    have := hp b hb
    rw [List.length_append]
    omega
  · show p.pos + a.length + 1 + x.length + 2 + 2 = _
    simp only [List.length_append, OPEN, CLOSE, List.length_cons, List.length_nil]
    omega

/-- A tag that is read is a piece of the reference, if it is not a comment that is not plain. -/
theorem readTag_took {p p' : Parser} (hp : p.Bounded)
    (hplain : ∀ a body, t.drop p.pos = a ++ BANG :: body → Spaces a → PlainBehind body)
    (h : parser_ReadTag t p = .ok p') : ∃ kind name tag rest,
      OPEN ++ t.drop p.pos = tag ++ rest ∧ Spells kind name tag ∧
        (kind ≠ .Ignore → ValidName (nameChars kind) name) ∧ Took t p p' kind name tag := by
  rcases readTag_inv h with ⟨kind, name, tag, rest, hkind, hdrop, htag, hname⟩ | ⟨a, body, hdrop, ha⟩
  · obtain ⟨width, hwidth, ⟨first, last, hstring, hpush⟩, -⟩ := readTag_spelled hdrop htag hkind hname
    rw [h] at hpush
    obtain ⟨hsome, hnone⟩ := push_nest hp (p.pos + width) hstring
    cases hstep : nestStep p.actions.length (p.stack t) kind name with
    | none =>
        rw [hnone hstep] at hpush
        nomatch hpush
    | some r =>
        obtain ⟨p'', hp'', hpushed⟩ := hsome r.1 r.2 hstep
        rw [hp''] at hpush
        cases hpush
        refine ⟨kind, name, tag, rest, hdrop, htag, fun _ => hname,
          ⟨_, r.1, rfl, hstring r.2, hstep, hpushed⟩, ?_⟩
        rw [(push_spec hp'').1]
        omega
  · have hignored := h
    rw [readTag_comment hdrop ha] at hignored
    have hbrace := ignored_inv hignored
    have hbody : t.drop (p.pos + a.length + 1) = body := drop_succ (drop_add hdrop)
    rw [hbody] at hbrace
    obtain ⟨x, y, rfl, hx, hfree⟩ := (hplain a body hdrop ha).resolve_left fun h => h hbrace
    obtain ⟨p'', hp'', htook⟩ := comment_took hp hdrop ha hx hfree
    rw [h] at hp''
    cases hp''
    refine ⟨.Ignore, x, _, y, ?_, .comment ha (free_close hfree), fun hne => absurd rfl hne, htook⟩
    rw [hdrop]
    simp only [List.append_assoc, List.cons_append, List.nil_append]

/-- A piece of the reference is read as such when the stack allows it. -/
theorem readTag_takes {p : Parser} (hp : p.Bounded) {kind : ActionType} {name tag rest : Bytes}
    (hdrop : OPEN ++ t.drop p.pos = tag ++ rest) (htag : Spells kind name tag)
    (hname : kind ≠ .Ignore → ValidName (nameChars kind) name) (hplain : PlainComment kind name)
    {stack : List (Nat × Bytes)} {target : Nat}
    (hstep : nestStep p.actions.length (p.stack t) kind name = some (stack, target)) :
    ∃ p', parser_ReadTag t p = .ok p' ∧ Took t p p' kind name tag := by
  by_cases hkind : kind = .Ignore
  · subst hkind
    cases htag with
    | named hne => exact absurd rfl hne
    | @comment _ a ha htext =>
        obtain ⟨hne, hbrace⟩ := hplain rfl
        apply comment_took (y := rest) hp _ ha hne hbrace
        rw [List.append_assoc] at hdrop
        rw [List.append_cancel_left hdrop]
        simp only [List.append_assoc, List.cons_append, List.nil_append]
  · obtain ⟨width, hwidth, ⟨first, last, hstring, hpush⟩, -⟩ :=
      readTag_spelled hdrop htag hkind (hname hkind)
    obtain ⟨p', hp', hpushed⟩ := (push_nest hp (p.pos + width) hstring).1 stack target hstep
    rw [hp'] at hpush
    cases hread : parser_ReadTag t p with
    | error e =>
        rw [hread] at hpush
        nomatch hpush
    | ok p'' =>
        rw [hread] at hpush
        cases hpush
        refine ⟨_, rfl, ⟨_, stack, rfl, hstring target, hstep, hpushed⟩, ?_⟩
        rw [(push_spec hp').1]
        omega

/-! ## The comments of the reference -/

private theorem comment_unique {name x rest y : Bytes}
    (h : name ++ (CLOSE ++ rest) = x ++ (CLOSE ++ y)) (hfree : Free CLOSE (name ++ [RBRACE]))
    (hx : RBRACE ∉ x) : name = x := by
  induction x generalizing name with
  | nil =>
      match name with
      | [] => rfl
      | [c] =>
          cases (show c = RBRACE from (List.cons.inj h).1)
          exact absurd rfl (hfree [] [])
      | c :: d :: n =>
          cases (show c = RBRACE from (List.cons.inj h).1)
          cases (show d = RBRACE from (List.cons.inj (List.cons.inj h).2).1)
          exact absurd rfl (hfree [] (n ++ [RBRACE]))
  | cons c x ih =>
      rw [List.mem_cons, not_or] at hx
      cases name with
      | nil => exact absurd (List.cons.inj h).1 hx.1
      | cons d n =>
          obtain ⟨hd, htail⟩ := List.cons.inj h
          have hfree' : Free CLOSE (n ++ [RBRACE]) := fun a b hab =>
            hfree (d :: a) b (congrArg (d :: ·) hab)
          rw [hd, ih htail hfree' hx.2]

/-- The comments of a template are plain in every way to make texts and tags of it. -/
theorem plainComment_of_lexed (hplain : CommentsPlain t) {s last : Bytes} {pieces : List Piece}
    (hlex : Lexed s pieces last) (hvalid : ∀ x ∈ pieces, x.Valid) (done : Bytes)
    (before : List Piece) (ht : t = done ++ s) (hdone : Lexed done before [])
    (hbefore : ∀ x ∈ before, x.Valid) : ∀ x ∈ pieces, PlainComment x.kind x.name := by
  induction hlex generalizing done before with
  | last htext => exact nofun
  | @piece text tag name rest last kind pieces htext htag hrest ih =>
      obtain ⟨hhead, htail⟩ := List.forall_mem_cons.mp hvalid
      obtain ⟨inner, hinner⟩ := htag.opens
      rw [List.forall_mem_cons]
      constructor
      · rintro rfl
        cases htag with
        | named hne => exact absurd rfl hne
        | @comment _ a ha hfree =>
            have hbody : PlainBehind (name ++ (CLOSE ++ rest)) := by
              apply hplain done before text a _ _ hdone hbefore htext ha
              rw [ht]
              simp only [List.append_assoc, List.cons_append, List.nil_append]
            obtain ⟨x, y, heq, hx, hbrace⟩ := hbody.resolve_left fun hno =>
              hno (List.mem_append_right _ (List.mem_append_left _ List.mem_cons_self))
            rw [comment_unique heq hfree hbrace]
            exact ⟨hx, hbrace⟩
      · have hone : Lexed (text ++ tag) [⟨text, kind, name⟩] [] := by
          have := Lexed.piece htext htag (Lexed.last free_nil)
          rwa [List.append_nil] at this
        refine ih htail _ _ ?_ (hdone.append hone) ?_
        · rw [ht]
          simp only [List.append_assoc]
        · rw [List.forall_mem_append, List.forall_mem_singleton]
          exact ⟨hbefore, hhead⟩

/-! ## The loop and the stack -/

/-- The actions of a template and what the stack machine says of them. -/
structure Acts (t : Bytes) (k : Nat) (stack : List (Nat × Bytes)) (pieces : List Piece)
    (acts : List Action) : Prop where
  tags : acts.map (fun a => (a.tag, tagString t a)) = pieces.map fun x => (x.kind, x.name)
  nested : nest k stack pieces = some (acts.map (·.pos))

private theorem Acts.cons {k : Nat} {stack stack' : List (Nat × Bytes)} {x : Piece}
    {xs : List Piece} {act : Action} {acts : List Action} (h : Acts t (k + 1) stack' xs acts)
    (htag : act.tag = x.kind) (hname : tagString t act = x.name)
    (hstep : nestStep k stack x.kind x.name = some (stack', act.pos)) :
    Acts t k stack (x :: xs) (act :: acts) := by
  refine ⟨?_, ?_⟩
  · rw [List.map_cons, List.map_cons, h.tags, htag, hname]
  · rw [nest, hstep]
    simp only [Option.bind_eq_bind, Option.bind_some]
    rw [h.nested]
    rfl

/-- Where the loop succeeds and closes all sections, the template is made of valid pieces that nest. -/
private theorem parseLoop_nested (hplain : CommentsPlain t) {fuel : Nat} {p q : Parser}
    (h : parseLoop t fuel p = .ok q) (hq : q.blocks = []) (hp : p.Bounded) (done : List Piece)
    (hdone : Lexed (t.take p.pos) done []) (hvalid : ∀ x ∈ done, x.Valid) :
    ∃ pieces last acts, Lexed (t.drop p.pos) pieces last ∧ (∀ x ∈ pieces, x.Valid) ∧
      q.actions = p.actions ++ acts ∧ Acts t p.actions.length (p.stack t) pieces acts := by
  -- on what is left of the template; the pieces that are done go along with their lexing
  induction hn : t.length - p.pos using Nat.strong_induction_on generalizing fuel p done with
  | _ n ih =>
  rcases parseLoop_inv h with ⟨hfree, rfl⟩ | ⟨text, x, fuel', p', hdrop, hfree, hread, hloop⟩
  · refine ⟨[], _, [], .last hfree, nofun, (List.append_nil _).symm, rfl, ?_⟩
    have hstack : p.stack t = [] := by
      rw [Parser.stack, show p.blocks = [] from hq, List.map_nil]
    rw [nest, if_pos hstack]
    rfl
  · have hdropX : t.drop (p.opened text.length).pos = x :=
      drop_add (a := OPEN) (drop_add hdrop)
    obtain ⟨kind, name, tag, rest, hx, htag, hname, ⟨act, stack, hact, hstring, hstep, hpushed⟩,
      hpos⟩ := readTag_took (p := p.opened text.length) hp (fun a body hbody ha => by
        apply hplain (t.take p.pos) done text a body _ hdone hvalid hfree ha
        rw [← hbody, hdropX, ← hdrop, List.take_append_drop]) hread
    rw [hdropX] at hx
    rw [hx] at hdrop
    have hstop : p'.pos = p.pos + (text ++ tag).length := by
      rw [List.length_append]
      have : (p.opened text.length).pos = p.pos + text.length + 2 := rfl
      omega
    have hopen : 2 ≤ tag.length := by
      obtain ⟨inner, rfl⟩ := htag.opens
      rw [List.length_append]
      exact Nat.le_add_right 2 _
    have hvalidPiece : Piece.Valid ⟨text, kind, name⟩ := hname
    have hlen : p.pos + (text ++ tag).length ≤ t.length := by
      have := congrArg List.length hdrop
      rw [List.length_drop, ← List.append_assoc, List.length_append] at this
      rw [List.length_append] at this ⊢
      omega
    -- the piece is added to those that are done
    have hdone' : Lexed (t.take p'.pos) (done ++ [⟨text, kind, name⟩]) [] := by
      rw [hstop, List.take_add, hdrop, ← List.append_assoc, List.take_left]
      have hone := Lexed.piece hfree htag (Lexed.last free_nil)
      rw [List.append_nil] at hone
      exact hdone.append hone
    have hlt : t.length - p'.pos < n := by
      rw [List.length_append] at hstop hlen
      omega
    obtain ⟨pieces, last, acts, hlex, hvalid', hacts, hall⟩ := ih _ hlt hloop hpushed.bounded _ hdone'
      (List.forall_mem_append.mpr ⟨hvalid, List.forall_mem_singleton.mpr hvalidPiece⟩) rfl
    have hrest : t.drop p'.pos = rest := by
      rw [hstop]
      exact drop_add (hdrop.trans (List.append_assoc ..).symm)
    rw [hrest] at hlex
    refine ⟨⟨text, kind, name⟩ :: pieces, last, act :: acts, ?_, ?_, ?_, ?_⟩
    · rw [hdrop]
      exact .piece hfree htag hlex
    · exact List.forall_mem_cons.mpr ⟨hvalidPiece, hvalid'⟩
    · rw [hacts, hpushed.actions, List.append_assoc]
      rfl
    · rw [hpushed.actions, hpushed.stack, List.length_append] at hall
      exact hall.cons hact hstring hstep

/-- The loop goes through valid pieces that nest. -/
private theorem parseLoop_nests {s last : Bytes} {pieces : List Piece} (hlex : Lexed s pieces last)
    (hvalid : ∀ x ∈ pieces, x.Valid) (hplain : ∀ x ∈ pieces, PlainComment x.kind x.name)
    {fuel : Nat} {p : Parser} (hdrop : t.drop p.pos = s) (hp : p.Bounded) {ts : List Nat}
    (hnest : nest p.actions.length (p.stack t) pieces = some ts) (hfuel : s.length ≤ fuel) :
    ∃ q acts, parseLoop t fuel p = .ok q ∧ q.blocks = [] ∧ q.actions = p.actions ++ acts ∧
      acts.map (·.tag) = pieces.map (·.kind) := by
  induction hlex generalizing fuel p ts with
  -- behind the last tag there is text only, and the stack has to be empty
  | @last text htext =>
      obtain ⟨more, rfl⟩ := Nat.exists_eq_add_of_le hfuel
      have hfree : Free OPEN (text ++ ([] : Bytes).take 1) := by
        rw [List.take_nil, List.append_nil]
        exact htext
      have hend : t.length ≤ p.pos + text.length := by
        rw [← hdrop, List.length_drop]
        omega
      rw [parseLoop_skip (hdrop.trans (List.append_nil text).symm) hfree, parseLoop_end hend]
      refine ⟨_, [], rfl, ?_, (List.append_nil _).symm, rfl⟩
      rw [nest] at hnest
      split_ifs at hnest with hstack
      rwa [Parser.stack, List.map_eq_nil_iff] at hstack
  -- the text in front of the tag is skipped, and the tag is read
  | @piece text tag name rest last kind pieces htext htag hrest ih =>
      obtain ⟨hhead, htail⟩ := List.forall_mem_cons.mp hvalid
      obtain ⟨hplainHead, hplainTail⟩ := List.forall_mem_cons.mp hplain
      obtain ⟨inner, hinner⟩ := htag.opens
      rw [List.length_append, List.length_append, hinner, List.length_append] at hfuel
      obtain ⟨more, rfl⟩ : ∃ more, fuel = text.length + (more + 1) :=
        ⟨fuel - text.length - 1, by
          have : OPEN.length = 2 := rfl
          omega⟩
      have hfree : Free OPEN (text ++ (tag ++ rest).take 1) := by rw [hinner]; exact htext
      have hdropO : t.drop (p.pos + text.length) = OPEN ++ (inner ++ rest) := by
        rw [drop_add hdrop, hinner, List.append_assoc]
      rw [parseLoop_skip hdrop hfree,
        parseLoop_open (p := { p with pos := p.pos + text.length }) hdropO]
      rw [nest] at hnest
      obtain ⟨⟨stack, target⟩, hstep, hbind⟩ := Option.bind_eq_some_iff.mp hnest
      obtain ⟨ts', hbehind, -⟩ := Option.bind_eq_some_iff.mp hbind
      have hdropI : OPEN ++ t.drop (p.opened text.length).pos = tag ++ rest := by
        rw [show t.drop (p.opened text.length).pos = inner ++ rest from drop_add (a := OPEN) hdropO,
          hinner, List.append_assoc]
      obtain ⟨p', hread, ⟨act, stack', hact, hstring, hstep', hpushed⟩, hpos⟩ :=
        readTag_takes (p := p.opened text.length) hp hdropI htag hhead hplainHead hstep
      -- the step of the stack is the one that the nesting allows
      have hsame : (stack, target) = (stack', act.pos) :=
        Option.some.inj (hstep.symm.trans hstep')
      cases hsame
      have hread' : parser_ReadTag t (Parser.opened { p with pos := p.pos + text.length } 0) =
          .ok p' := hread
      rw [hread', Except.bind_of_ok]
      have hstop : p'.pos = p.pos + text.length + tag.length := by
        have : (p.opened text.length).pos = p.pos + text.length + 2 := rfl
        omega
      have hnest' : nest p'.actions.length (p'.stack t) pieces = some ts' := by
        rw [hpushed.actions, hpushed.stack, List.length_append]
        exact hbehind
      have hmore : rest.length ≤ more := by
        have : OPEN.length = 2 := rfl
        omega
      obtain ⟨q, acts, hq, hblocks, hacts, hkinds⟩ := ih htail hplainTail
        (by rw [hstop]; exact drop_add (drop_add hdrop)) hpushed.bounded hnest' hmore
      refine ⟨q, act :: acts, hq, hblocks, ?_, ?_⟩
      · rw [hacts, hpushed.actions, List.append_assoc]
        rfl
      · rw [List.map_cons, List.map_cons, hkinds, hact]

/-! ## Inverted sections -/

theorem checkElse_of_ends {acts : List Action} (h : (acts.map (·.tag)).IsChain Ends) :
    checkElse t acts = .ok () := by
  fun_induction checkElse t acts with
  | case1 b a acts hbad => exact absurd ((List.isChain_cons_cons.mp h).1 hbad.1) hbad.2
  | case2 b a acts hgood ih => exact ih (List.isChain_cons_cons.mp h).2
  | case3 acts hshort => rfl

private theorem ends_append_of_flat {f : Forest} (hf : f.Flat) {kinds : List ActionType}
    (h : kinds.IsChain Ends) : (f.pieces.map (·.kind) ++ kinds).IsChain Ends := by
  -- nothing is asked of what follows another kind
  have hcons : ∀ {k : ActionType} {l : List ActionType}, k ≠ .ElseBlock → l.IsChain Ends →
      (k :: l).IsChain Ends := fun hk hl =>
    List.isChain_cons.mpr ⟨fun _ _ heq => absurd heq hk, hl⟩
  induction f generalizing kinds with
  | nil => exact h
  | leaf text tag name rest ih =>
      exact hcons (fun heq => by cases tag <;> cases heq) (ih hf h)
  | block text inverted name body post rest ihbody ihrest =>
      obtain ⟨hinverted, hbody, hrest⟩ := hf
      rw [Forest.pieces, List.map_cons, List.map_append, List.map_cons, List.cons_append,
        List.append_assoc, List.cons_append]
      have hclose : (ActionType.CloseBlock :: (rest.pieces.map (·.kind) ++ kinds)).IsChain Ends :=
        hcons (by decide) (ihrest hrest h)
      cases inverted with
      | false => exact hcons (fun heq => by cases heq) (ihbody hbody hclose)
      | true =>
          rw [hinverted rfl]
          exact List.isChain_cons_cons.mpr ⟨fun _ => rfl, hclose⟩

theorem ends_of_flat {f : Forest} (hf : f.Flat) : (f.pieces.map (·.kind)).IsChain Ends := by
  have h := ends_append_of_flat hf .nil
  rwa [List.append_nil] at h

/-! ## Parsing -/

private theorem wellNested_of_parse (hplain : CommentsPlain t) {m : Template}
    (h : parse t = .ok m) : ∃ f last, WellNested t f last ∧
      m.actions.map (fun a => (a.tag, tagString t a)) = f.pieces.map (fun x => (x.kind, x.name)) ∧
        m.actions.map (·.pos) = f.targets 0 := by
  unfold parse at h
  split_ifs at h with hnil
  · injection h with h
    subst hnil h
    exact ⟨.nil, [], ⟨.last free_nil, nofun, trivial⟩, rfl, rfl⟩
  · obtain ⟨q, hq, h⟩ := Except.ok_of_bind h
    by_cases hblocks : q.blocks = []
    · rw [if_neg (not_not.mpr hblocks)] at h
      obtain ⟨_, helse, h⟩ := Except.ok_of_bind h
      injection h with h
      subst h
      obtain ⟨pieces, last, acts, hlex, hvalid, hacts, htags, hnested⟩ :=
        parseLoop_nested (p := ⟨0, 0, [], [], []⟩) hplain hq hblocks nofun [] (.last free_nil) nofun
      rw [List.nil_append] at hacts
      obtain ⟨f, rfl, htargets⟩ := (nest_eq_some_iff pieces _).mp hnested
      have hkinds : acts.map (·.tag) = f.pieces.map (·.kind) := by
        have := congrArg (List.map Prod.fst) htags
        rwa [List.map_map, List.map_map] at this
      refine ⟨f, last, ⟨hlex, hvalid, flat_of_ends ?_⟩, ?_, ?_⟩
      · rw [← hkinds, ← hacts]
        exact checkElse_ends helse
      · rw [hacts, htags]
      · rw [hacts, htargets]
    · rw [if_pos hblocks] at h
      nomatch h

private theorem parse_of_wellNested (hplain : CommentsPlain t) {f : Forest} {last : Bytes}
    (h : WellNested t f last) : ∃ m, parse t = .ok m := by
  unfold parse
  split_ifs with hnil
  · exact ⟨_, rfl⟩
  have hcomments := plainComment_of_lexed hplain h.lexed h.valid [] [] rfl (.last free_nil) nofun
  have hnest : nest 0 [] f.pieces = some (f.targets 0) :=
    (nest_eq_some_iff _ _).mpr ⟨f, rfl, rfl⟩
  obtain ⟨q, acts, hq, hblocks, hacts, hkinds⟩ := parseLoop_nests h.lexed h.valid hcomments
    (p := ⟨0, 0, [], [], []⟩) List.drop_zero nofun hnest (Nat.le_refl t.length)
  have helse : checkElse t q.actions = .ok () := by
    apply checkElse_of_ends
    rw [hacts, List.nil_append, hkinds]
    exact ends_of_flat h.flat
  rw [hq, Except.bind_of_ok, if_neg (not_not.mpr hblocks), helse]
  exact ⟨_, rfl⟩

/-- **When comments are plain, the templates that are accepted are the well-nested ones.** Every other
one raises an exception, and a close action has the index of its own open action. -/
theorem parse_wellNested_iff (hplain : CommentsPlain t) :
    ((∃ m, parse t = .ok m) ↔ ∃ f last, WellNested t f last) ∧
      ((¬ ∃ m, parse t = .ok m) → ∃ what, parse t = .error (.exception what)) ∧
        ∀ m, parse t = .ok m → ∃ f last, WellNested t f last ∧
          m.actions.map (fun a => (a.tag, tagString t a)) =
            f.pieces.map (fun x => (x.kind, x.name)) ∧ m.actions.map (·.pos) = f.targets 0 := by
  refine ⟨⟨?_, ?_⟩, fun hno => ?_, fun m hm => wellNested_of_parse hplain hm⟩
  · rintro ⟨m, hm⟩
    obtain ⟨f, last, h, -⟩ := wellNested_of_parse hplain hm
    exact ⟨f, last, h⟩
  · rintro ⟨f, last, h⟩
    exact parse_of_wellNested hplain h
  · cases hparse : parse t with
    | ok m => exact absurd ⟨m, hparse⟩ hno
    | error e =>
        cases e with
        | exception what => exact ⟨what, rfl⟩
        | outOfFuel => exact absurd hparse (parse_total t)

/-- A section with this inside. -/
def twoTags (inside : Bytes) : Bytes :=
  OPEN ++ str "#a" ++ CLOSE ++ inside ++ OPEN ++ str "/a" ++ CLOSE

theorem parse_wellNested_section : (∃ m, parse (twoTags (str "b")) = .ok m) ↔
    ∃ f last, WellNested (twoTags (str "b")) f last :=
  (parse_wellNested_iff fun done pieces text a body h => by
    have hno : BANG ∉ twoTags (str "b") := by decide
    rw [h] at hno
    simp at hno).1

/-- The action that opens a section does not have the index of the one that closes it. -/
theorem not_parse_targets : ¬ ∀ t : Bytes,
    ((∃ m, parse t = .ok m) ↔ ∃ f last, WellNested t f last) ∧
      ∀ m, parse t = .ok m → ∀ a ∈ m.actions, a.tag = .OpenBlock ∨ a.tag = .ElseBlock →
        ∃ c, m.actions[a.pos]? = some c ∧ c.tag = .CloseBlock ∧ tagString t c = tagString t a := by
  intro h
  have hparse : parse (twoTags []) =
      .ok ⟨twoTags [], [(0, 0), (6, 6)],
        [⟨.OpenBlock, 3, 4, 0⟩, ⟨.CloseBlock, 9, 10, 0⟩]⟩ := by decide
  obtain ⟨c, hc, htag, -⟩ := (h _).2 _ hparse ⟨.OpenBlock, 3, 4, 0⟩ (by decide) (.inl rfl)
  cases hc
  nomatch htag

end Suil.Mustache
