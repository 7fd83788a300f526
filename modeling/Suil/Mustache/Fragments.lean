import Suil.Mustache.Accepting

set_option autoImplicit false

/-! # The fragments of a template

`parse` records the texts between the tags as pairs of positions. `parseLoop_covers` and
`parseLoop_records` say that these and the tags make up the template exactly when its comments end where
the parser takes them to end. -/

namespace Suil.Mustache

variable {t : Bytes}

/-! ## Fragments that lose nothing -/

/-- One tag, from its opening braces to the first ones that close it. -/
def IsTag (tag : Bytes) : Prop := ∃ kind name, Spells kind name tag

/-- From a position on the template is fragments with a tag behind each of them; the last one may
be without. -/
inductive Covers (t : Bytes) : Nat → List Fragment → List Action → Prop where
  | done : Covers t t.length [] []
  | last {pos : Nat} (hpos : pos < t.length) : Covers t pos [(pos, t.length)] []
  | tag {pos stop next : Nat} {frags : List Fragment} {act : Action} {acts : List Action}
      (hle : pos ≤ stop) (hnext : stop ≤ next) (htag : IsTag (fragString t (stop, next)))
      (hrest : Covers t next frags acts) : Covers t pos ((pos, stop) :: frags) (act :: acts)

/-- Texts and tags in turn. -/
def interleave : List Bytes → List Bytes → Bytes
  | x :: xs, y :: ys => x ++ (y ++ interleave xs ys)
  | xs, [] => xs.flatten
  | [], ys => ys.flatten

/-- The fragments are inside of the template, one behind the other with a tag in between, and the
whole is the template; there are as many as there are actions, or one more. -/
structure LosesNothing (t : Bytes) (m : Template) : Prop where
  inside : ∀ f ∈ m.fragments, f.1 ≤ f.2 ∧ f.2 ≤ t.length
  ordered : m.fragments.Pairwise fun f g => f.2 ≤ g.1
  counted : m.fragments.length = m.actions.length ∨ m.fragments.length = m.actions.length + 1
  covers : Covers t 0 m.fragments m.actions
  whole : ∃ tags, tags.length = m.actions.length ∧ (∀ tag ∈ tags, IsTag tag) ∧
    interleave (m.fragments.map (fragString t)) tags = t

/-- No comment has a closing brace inside, and none but one at the end of the template is empty. -/
def CommentsFit : List Piece → Bytes → Prop
  | [], _ => True
  | x :: xs, last =>
      (x.kind = .Ignore → RBRACE ∉ x.name ∧ (x.name ≠ [] ∨ xs = [] ∧ last = [])) ∧
        CommentsFit xs last

/-! ## What follows of a cover -/

section
variable {pos : Nat} {frags : List Fragment} {acts : List Action}

theorem Covers.le (h : Covers t pos frags acts) : pos ≤ t.length := by
  induction h with
  | done => exact Nat.le_refl _
  | last hpos => exact Nat.le_of_lt hpos
  | tag hle hnext htag hrest ih => omega

theorem Covers.inside (h : Covers t pos frags acts) :
    ∀ f ∈ frags, pos ≤ f.1 ∧ f.1 ≤ f.2 ∧ f.2 ≤ t.length := by
  induction h with
  | done => exact nofun
  | last hpos =>
      rw [List.forall_mem_singleton]
      exact ⟨Nat.le_refl _, Nat.le_of_lt hpos, Nat.le_refl _⟩
  | tag hle hnext htag hrest ih =>
      have hend := hrest.le
      rw [List.forall_mem_cons]
      refine ⟨⟨Nat.le_refl _, hle, by dsimp only; omega⟩, fun f hf => ?_⟩
      have := ih f hf
      omega

theorem Covers.ordered (h : Covers t pos frags acts) :
    frags.Pairwise fun f g => f.2 ≤ g.1 := by
  induction h with
  | done => exact .nil
  | last hpos => exact List.pairwise_singleton _ _
  | tag hle hnext htag hrest ih =>
      exact List.pairwise_cons.mpr ⟨fun g hg => hnext.trans (hrest.inside g hg).1, ih⟩

theorem Covers.counted (h : Covers t pos frags acts) :
    frags.length = acts.length ∨ frags.length = acts.length + 1 := by
  induction h with
  | done => exact .inl rfl
  | last hpos => exact .inr rfl
  | tag hle hnext htag hrest ih =>
      rw [List.length_cons, List.length_cons]
      omega

theorem fragString_append {first next last : Nat} (h : first ≤ next) (h' : next ≤ last) :
    fragString t (first, next) ++ fragString t (next, last) = fragString t (first, last) := by
  rw [fragString, fragString, fragString]
  dsimp only
  have hlen : last - first = (next - first) + (last - next) := by omega
  have hdrop : t.drop next = (t.drop first).drop (next - first) := by
    rw [List.drop_drop, Nat.add_sub_cancel' h]
  rw [hlen, List.take_add, hdrop]

theorem Covers.whole (h : Covers t pos frags acts) :
    ∃ tags, tags.length = acts.length ∧ (∀ tag ∈ tags, IsTag tag) ∧
      interleave (frags.map (fragString t)) tags = fragString t (pos, t.length) := by
  induction h with
  | done =>
      refine ⟨[], rfl, nofun, ?_⟩
      rw [fragString, Nat.sub_self, List.take_zero]
      rfl
  | last hpos => exact ⟨[], rfl, nofun, List.append_nil _⟩
  | tag hle hnext htag hrest ih =>
      obtain ⟨tags, hlen, htags, hwhole⟩ := ih
      refine ⟨_ :: tags, congrArg (· + 1) hlen, List.forall_mem_cons.mpr ⟨htag, htags⟩, ?_⟩
      rw [List.map_cons, interleave, hwhole, fragString_append hnext hrest.le,
        fragString_append hle (hnext.trans hrest.le)]

end

theorem losesNothing_of_covers {m : Template} (h : Covers t 0 m.fragments m.actions) :
    LosesNothing t m := by
  refine ⟨fun f hf => (h.inside f hf).2, h.ordered, h.counted, h, ?_⟩
  obtain ⟨tags, hlen, htags, hwhole⟩ := h.whole
  refine ⟨tags, hlen, htags, hwhole.trans ?_⟩
  rw [fragString, List.drop_zero, Nat.sub_zero, List.take_length]

/-! ## Where comments end -/

private theorem behind_spaces {a a' x x' : Bytes} {c c' : UInt8} (h : a ++ c :: x = a' ++ c' :: x')
    (ha : Spaces a) (ha' : Spaces a') (hc : isSpace c = false) (hc' : isSpace c' = false) :
    c = c' ∧ x = x' := by
  have hdrop := congrArg (List.dropWhile isSpace) h
  rw [List.dropWhile_append_of_pos ha, List.dropWhile_append_of_pos ha',
    List.dropWhile_cons_of_neg (Bool.eq_false_iff.mp hc),
    List.dropWhile_cons_of_neg (Bool.eq_false_iff.mp hc')] at hdrop
  exact List.cons.inj hdrop

/-- A tag with the sign of comments is one, up to its first closing braces. -/
private theorem comment_of_spells {kind : ActionType} {name a z : Bytes}
    (h : Spells kind name (OPEN ++ (a ++ BANG :: z))) (ha : Spaces a) :
    ∃ text, z = text ++ CLOSE ∧ Free CLOSE (text ++ [RBRACE]) := by
  generalize htag : OPEN ++ (a ++ BANG :: z) = tag at h
  cases h with
  | @named _ _ a' b c hkind hname ha' hb hc =>
      have hinner := List.append_cancel_left htag
      -- the sign of another kind is not the one of comments
      have hsigned : ∀ d, sign kind = [d] → isSpace d = false → BANG = d := by
        intro d hsign hd
        simp only [hsign, List.append_assoc, List.cons_append, List.nil_append] at hinner
        exact (behind_spaces hinner ha ha' (by decide) hd).1
      cases kind with
      | Ignore => exact absurd rfl hkind
      | Tag =>
          obtain ⟨d, n, rfl, hd⟩ := hname.head
          have hspaces : Spaces (a' ++ b) := fun x hx =>
            (List.mem_append.mp hx).elim (ha' x) (hb x)
          have hnamed : _ = (a' ++ b) ++ d :: (n ++ (c ++ CLOSE)) := hinner.trans (by
            simp only [sign, List.append_assoc, List.cons_append, List.nil_append])
          have hbang := (behind_spaces hnamed ha hspaces (by decide) (head_not_space hd)).1
          exact absurd hbang.symm (head_no_sign hd).2.2.2.1
      | OpenBlock => exact absurd (hsigned HASH rfl (by decide)) (by decide)
      | CloseBlock => exact absurd (hsigned SLASH rfl (by decide)) (by decide)
      | ElseBlock => exact absurd (hsigned CARET rfl (by decide)) (by decide)
      | Partial => exact absurd (hsigned GT rfl (by decide)) (by decide)
      | UnEscapeTag => exact absurd (hsigned AMP rfl (by decide)) (by decide)
  | @triple _ a' b c hname ha' hb hc =>
      have hinner := List.append_cancel_left htag
      simp only [List.append_assoc, List.cons_append, List.nil_append] at hinner
      exact absurd (behind_spaces hinner ha ha' (by decide) (by decide)).1 (by decide)
  | @comment text a' ha' htext =>
      have hinner := List.append_cancel_left htag
      simp only [List.append_assoc, List.cons_append, List.nil_append] at hinner
      exact ⟨name, (behind_spaces hinner ha ha' (by decide) (by decide)).2, htext⟩

/-- What the parser takes for a comment is one when the braces that close it follow on the first
closing brace. The template may end in front of the last character that is skipped. -/
private theorem comment_closed {x y text : Bytes} (hx : RBRACE ∉ x)
    (h : (x ++ RBRACE :: y).take (max x.length 1 + 2) = text ++ CLOSE)
    (hfree : Free CLOSE (text ++ [RBRACE])) :
    text = x ∧ ∃ rest, y = RBRACE :: rest ∧ (x ≠ [] ∨ rest = []) := by
  cases x with
  | nil =>
      have hlen : min (RBRACE :: y).length 3 = text.length + 2 := by
        have := congrArg List.length h
        rwa [List.length_append, List.length_take, min_comm] at this
      match text with
      | [] =>
          rw [List.length_cons, List.length_nil] at hlen
          obtain ⟨d, rfl⟩ := List.length_eq_one_iff.mp (show y.length = 1 by omega)
          cases (List.cons.inj (List.cons.inj h).2).1
          exact ⟨rfl, [], rfl, .inr rfl⟩
      | [c] =>
          cases (List.cons.inj h).1
          exact absurd rfl (hfree [] [])
      | _ :: _ :: _ =>
          simp only [List.length_cons] at hlen
          omega
  | cons c x =>
      have htake : (c :: x ++ RBRACE :: y).take (max (c :: x).length 1 + 2) =
          c :: x ++ RBRACE :: y.take 1 := by
        rw [max_eq_left (by rw [List.length_cons]; omega), List.take_append,
          List.take_of_length_le (Nat.le_add_right _ 2), Nat.add_sub_cancel_left,
          List.take_succ_cons]
      rw [htake] at h
      cases y with
      | nil =>
          -- the text would end with the closing brace
          have hlast : c :: x = text ++ [RBRACE] := by
            have hclosed : c :: x ++ [RBRACE] = text ++ [RBRACE] ++ [RBRACE] := by
              rw [List.append_assoc]
              exact h
            exact List.append_cancel_right hclosed
          rw [hlast] at hx
          exact absurd (List.mem_append_right _ List.mem_cons_self) hx
      | cons d y =>
          have hsame : c :: x ++ [RBRACE, d] = text ++ CLOSE := h
          have htext := List.append_inj_left' hsame rfl
          have hclose := List.append_inj_right' hsame rfl
          cases hclose
          exact ⟨htext.symm, y, rfl, .inl (List.cons_ne_nil _ _)⟩

/-! ## The loop -/

/-- The fragment behind the last tag, when there is any text. -/
def Parser.ending (q : Parser) : List Fragment := if q.pos ≠ q.frag then [(q.frag, q.pos)] else []

theorem Parser.ending_eq_nil {q : Parser} (h : q.pos = q.frag) : q.ending = [] :=
  if_neg (not_not.mpr h)

/-- From `p` to `q` the loop has recorded these fragments and actions. -/
structure Records (p q : Parser) (frags : List Fragment) (acts : List Action) : Prop where
  fragments : q.fragments ++ q.ending = p.fragments ++ frags
  actions : q.actions = p.actions ++ acts

/-- A tag, and what is recorded behind it. -/
private theorem Records.tag {p p' q : Parser} {n : Nat} {frags : List Fragment}
    {acts : List Action} {act : Action} (h : Records p' q frags acts)
    (hfragments : p'.fragments = (p.opened n).fragments) (hact : p'.actions = p.actions ++ [act]) :
    Records p q ((p.frag, p.pos + n) :: frags) (act :: acts) := by
  refine ⟨?_, ?_⟩
  · rw [h.fragments, hfragments, Parser.opened, List.append_assoc]
    rfl
  · rw [h.actions, hact, List.append_assoc]
    rfl

private theorem records_end {p : Parser} (hfrag : p.frag = p.pos) :
    Records p { p with pos := p.pos + (t.length - p.pos) }
      (if p.pos < t.length then [(p.pos, t.length)] else []) [] := by
  refine ⟨?_, (List.append_nil _).symm⟩
  unfold Parser.ending
  dsimp only
  rw [hfrag]
  by_cases hend : p.pos < t.length
  · rw [if_pos hend, if_pos (by omega), Nat.add_sub_cancel' (Nat.le_of_lt hend)]
  · rw [if_neg hend, if_neg (by omega)]

theorem Covers.starts {pos first stop : Nat} {frags : List Fragment} {acts : List Action}
    (h : Covers t pos ((first, stop) :: frags) acts) : pos = first := by
  cases h <;> rfl

theorem Covers.tag_inv {pos first stop : Nat} {frags : List Fragment} {act : Action}
    {acts : List Action} (h : Covers t pos ((first, stop) :: frags) (act :: acts)) :
    ∃ next, IsTag (fragString t (stop, next)) ∧ Covers t next frags acts := by
  cases h with
  | tag hle hnext htag hrest => exact ⟨_, htag, hrest⟩

theorem Covers.stops {pos : Nat} {acts : List Action} (h : Covers t pos [] acts) :
    pos = t.length := by
  cases h
  rfl

theorem fragString_min (t : Bytes) (first last : Nat) :
    fragString t (first, min last t.length) = (t.drop first).take (last - first) := by
  rw [fragString, List.take_eq_take_iff, List.length_drop]
  dsimp only
  omega

/-! ### A template that is covered -/

theorem Read.forward {p p' : Parser} (h : Read t p p') : p.pos ≤ p'.pos := by
  cases h with
  | spelled hkind hdrop htag hpos =>
      obtain ⟨inner, rfl⟩ := htag.opens
      rw [List.length_append] at hpos
      have : OPEN.length = 2 := rfl
      omega
  | comment hdrop ha hx hpos => omega

/-- The rest of the template, from `pos` on, is texts and tags with comments that fit. -/
def Fits (t : Bytes) (pos : Nat) : Prop :=
  ∃ pieces last, Lexed (t.drop pos) pieces last ∧ CommentsFit pieces last

/-- What the parser has read fits when it is one tag, up to the end of the template. -/
private theorem fits_of_read {p p' : Parser} {text x : Bytes}
    (hdrop : t.drop p.pos = text ++ (OPEN ++ x)) (hfree : Free OPEN (text ++ [LBRACE]))
    (hread : Read t (p.opened text.length) p')
    (htag : IsTag (fragString t (p.pos + text.length, min p'.pos t.length)))
    (hrest : p'.pos ≤ t.length → Fits t p'.pos) : Fits t p.pos := by
  have hdropO : t.drop (p.pos + text.length) = OPEN ++ x := drop_add hdrop
  have hdropX : t.drop (p.opened text.length).pos = x := drop_add (a := OPEN) hdropO
  have hlen := congrArg List.length hdropO
  rw [List.length_append, List.length_drop] at hlen
  have hopened : (p.opened text.length).pos = p.pos + text.length + 2 := rfl
  have htwo : OPEN.length = 2 := rfl
  have hthree : CLOSE.length = 2 := rfl
  cases hread with
  | @spelled kind name tag rest hkind htagRest hspells hpos =>
      rw [hdropX] at htagRest
      have hstop : p'.pos = p.pos + text.length + tag.length := by omega
      have hrestDrop : t.drop p'.pos = rest := by
        rw [hstop]
        exact drop_add (hdropO.trans htagRest)
      have hle : p'.pos ≤ t.length := by
        have := congrArg List.length htagRest
        rw [List.length_append, List.length_append] at this
        omega
      obtain ⟨pieces, last, hlex, hfits⟩ := hrest hle
      rw [hrestDrop] at hlex
      refine ⟨⟨text, kind, name⟩ :: pieces, last, ?_, fun hig => absurd hig hkind, hfits⟩
      rw [hdrop, htagRest]
      exact .piece hfree hspells hlex
  | @comment a b y hbody ha hb hpos =>
      rw [hdropX] at hbody
      obtain ⟨kind, name, hspells⟩ := htag
      -- the part of the tag behind the sign
      have htake : (t.drop (p.pos + text.length)).take (p'.pos - (p.pos + text.length)) =
          OPEN ++ (a ++ BANG :: (b ++ RBRACE :: y).take (max b.length 1 + 2)) := by
        have hwidth : p'.pos - (p.pos + text.length) =
            OPEN.length + (a.length + (max b.length 1 + 2 + 1)) := by omega
        rw [hwidth, hdropO, hbody, List.take_length_add_append, List.take_length_add_append,
          List.take_succ_cons]
      rw [fragString_min, htake] at hspells
      obtain ⟨z, hz, hclosed⟩ := comment_of_spells hspells ha
      obtain ⟨rfl, rest, rfl, hempty⟩ := comment_closed hb hz hclosed
      have hx : OPEN ++ x = OPEN ++ (a ++ [BANG] ++ z ++ CLOSE) ++ rest := by
        rw [hbody]
        simp only [List.append_assoc, List.cons_append, List.nil_append]
        rfl
      have hcomment := Spells.comment ha hclosed
      have hlenX := congrArg List.length hx
      simp only [List.length_append, List.length_singleton] at hlenX hlen
      by_cases hz' : z = []
      · -- the empty comment at the end
        obtain rfl := hempty.resolve_left (not_not.mpr hz')
        refine ⟨[⟨text, .Ignore, z⟩], [], ?_, fun _ => ⟨hb, .inr ⟨rfl, rfl⟩⟩, trivial⟩
        rw [hdrop, hx]
        exact .piece hfree hcomment (.last free_nil)
      · have hpositive := List.length_pos_iff.mpr hz'
        have hstop : p'.pos = p.pos + text.length + (OPEN ++ (a ++ [BANG] ++ z ++ CLOSE)).length := by
          simp only [List.length_append, List.length_singleton]
          omega
        obtain ⟨pieces, last, hlex, hfits⟩ := hrest (by omega)
        rw [hstop, drop_add (hdropO.trans hx)] at hlex
        refine ⟨⟨text, .Ignore, z⟩ :: pieces, last, ?_, fun _ => ⟨hb, .inl hz'⟩, hfits⟩
        rw [hdrop, hx]
        exact .piece hfree hcomment hlex

/-- Where the loop succeeds, what it records covers only templates that fit. -/
private theorem parseLoop_records {fuel : Nat} {p q : Parser} (h : parseLoop t fuel p = .ok q)
    (hfrag : p.frag = p.pos) : ∃ frags acts, Records p q frags acts ∧
      (∀ pos, Covers t pos frags acts → pos = min p.pos t.length) ∧
        (Covers t p.pos frags acts → Fits t p.pos) := by
  induction hn : t.length - p.pos using Nat.strong_induction_on generalizing fuel p with
  | _ n ih =>
  rcases parseLoop_inv h with ⟨hfree, rfl⟩ | ⟨text, x, fuel', p', hdrop, hfree, hread, hloop⟩
  · refine ⟨_, [], records_end hfrag, fun pos hcovers => ?_, fun _ => ⟨[], _, .last hfree, trivial⟩⟩
    split_ifs at hcovers with hend
    · rw [hcovers.starts, min_eq_left (Nat.le_of_lt hend)]
    · rw [hcovers.stops, min_eq_right (Nat.le_of_not_lt hend)]
  · obtain ⟨hread, hfrag', hfragments, act, hact⟩ := readTag_read hread
    have hforward := hread.forward
    have hopened : (p.opened text.length).pos = p.pos + text.length + 2 := rfl
    have hlt := congrArg List.length hdrop
    rw [List.length_append, List.length_append, List.length_drop,
      show OPEN.length = 2 from rfl] at hlt
    obtain ⟨frags, acts, hrecords, hstarts, hfits⟩ := ih _ (by omega) hloop hfrag' rfl
    refine ⟨_, _, hrecords.tag hfragments hact, fun pos hcovers => ?_, fun hcovers => ?_⟩
    · rw [hcovers.starts, hfrag, min_eq_left (by omega)]
    · obtain ⟨next, htag, hrest⟩ := hcovers.tag_inv
      have hmin := hstarts next hrest
      rw [hmin] at htag
      refine fits_of_read hdrop hfree hread htag fun hle' => hfits ?_
      rwa [hmin, min_eq_left hle'] at hrest

/-! ### A template that fits -/

/-- An empty comment at the end: the parser stops behind the end of the template. -/
private theorem parseLoop_empty {fuel : Nat} {p q : Parser} {tag : Bytes}
    (hdrop : t.drop p.pos = tag) (htag : Spells .Ignore [] tag)
    (h : parseLoop t fuel p = .ok q) :
    ∃ act, Records p q [(p.frag, p.pos)] [act] := by
  cases htag with
  | named hkind => exact absurd rfl hkind
  | @comment _ a ha htext =>
      have hdropO : t.drop p.pos = OPEN ++ (a ++ BANG :: ([] ++ RBRACE :: [RBRACE])) := by
        rw [hdrop]
        simp only [List.append_assoc, List.cons_append, List.nil_append]
        rfl
      have hdropX : t.drop (p.opened 0).pos = a ++ BANG :: ([] ++ RBRACE :: [RBRACE]) :=
        drop_add (a := OPEN) hdropO
      cases fuel with
      | zero =>
          rw [parseLoop, if_neg (Nat.not_le_of_lt (lt_of_drop hdropO))] at h
          cases h
      | succ fuel =>
          rw [parseLoop_open hdropO, readTag_comment hdropX ha,
            ignored_eq (drop_succ (drop_add hdropX)) List.not_mem_nil, Except.bind_of_ok] at h
          have hlen := congrArg List.length hdropX
          rw [List.length_drop, List.length_append, List.length_cons] at hlen
          have hthree : ([] ++ RBRACE :: [RBRACE]).length = 2 := rfl
          rw [hthree] at hlen
          rw [parseLoop_end (by
            have : (max ([] : Bytes).length 1) = 1 := rfl
            unfold Parser.act
            dsimp only
            omega)] at h
          injection h with h
          subst h
          refine ⟨_, ?_, rfl⟩
          rw [Parser.ending_eq_nil rfl, List.append_nil]
          rfl

/-- Where the loop goes through a template that fits, what it records covers it. -/
private theorem parseLoop_covers {s last : Bytes} {pieces : List Piece} (hlex : Lexed s pieces last)
    (hfits : CommentsFit pieces last) {fuel : Nat} {p q : Parser} (hdrop : t.drop p.pos = s)
    (hpos : p.pos ≤ t.length) (hfrag : p.frag = p.pos) (h : parseLoop t fuel p = .ok q) :
    ∃ frags acts, Records p q frags acts ∧ Covers t p.pos frags acts := by
  -- on the lexing of what is left
  induction hlex generalizing fuel p with
  | @last text htext =>
      rcases parseLoop_inv h with ⟨-, rfl⟩ | ⟨text', x, fuel', p', hdrop', -⟩
      · refine ⟨_, [], records_end hfrag, ?_⟩
        split_ifs with hend
        · exact .last hend
        · rw [Nat.le_antisymm hpos (Nat.le_of_not_lt hend)]
          exact .done
      · rw [hdrop, ← List.append_assoc] at hdrop'
        exact absurd hdrop' (htext _ _)
  | @piece text tag name rest last kind pieces htext htag hrest ih =>
      obtain ⟨hcomment, hfits⟩ := hfits
      obtain ⟨inner, htag'⟩ := htag.opens
      have hfree : Free OPEN (text ++ (tag ++ rest).take 1) := by rw [htag']; exact htext
      obtain ⟨fuel, h⟩ := parseLoop_text hdrop hfree h
      have hdropT : t.drop (p.pos + text.length) = tag ++ rest := drop_add hdrop
      have hlen := congrArg List.length hdropT
      rw [List.length_drop, List.length_append] at hlen
      have hopen : 2 ≤ tag.length := by
        rw [htag', List.length_append]
        exact Nat.le_add_right 2 _
      -- the fragment of the tag is the tag itself
      have hstring : fragString t (p.pos + text.length, p.pos + text.length + tag.length) = tag := by
        rw [fragString, Nat.add_sub_cancel_left, hdropT, List.take_left]
      by_cases hplain : PlainComment kind name
      · obtain ⟨fuel, p', hreads, h⟩ := parseLoop_tag
          (p := { p with pos := p.pos + text.length }) hdropT htag hplain h
        have hstop : p'.pos = p.pos + text.length + tag.length := hreads.pos
        obtain ⟨frags, acts, hrecords, hcovers⟩ := ih hfits (by rw [hstop]; exact drop_add hdropT)
          (by omega) (hreads.frag.trans hreads.pos.symm) h
        obtain ⟨act, hact, -⟩ := hreads.actions
        refine ⟨_, _, hrecords.tag (n := text.length) hreads.fragments hact, ?_⟩
        rw [hfrag]
        refine .tag (Nat.le_add_right _ _) (Nat.le_add_right _ tag.length) ?_ (hstop ▸ hcovers)
        exact ⟨kind, name, hstring.symm ▸ htag⟩
      · -- the empty comment at the end
        obtain ⟨rfl, hbad⟩ := Classical.not_imp.mp hplain
        obtain ⟨hbrace, hempty⟩ := hcomment rfl
        have hname : name = [] := by
          by_contra hne
          exact hbad ⟨hne, hbrace⟩
        obtain ⟨rfl, rfl⟩ := hempty.resolve_left (not_not.mpr hname)
        cases hrest with
        | last =>
        subst hname
        obtain ⟨act, hrecords⟩ := parseLoop_empty (p := { p with pos := p.pos + text.length })
          (hdropT.trans (List.append_nil _)) htag h
        have hstop : p.pos + text.length + tag.length = t.length := by
          rw [List.length_nil] at hlen
          omega
        rw [hstop] at hstring
        refine ⟨[(p.pos, p.pos + text.length)], [act], ⟨?_, hrecords.actions⟩, ?_⟩
        · rw [hrecords.fragments, hfrag]
        · exact .tag (Nat.le_add_right _ _) (by omega) ⟨.Ignore, [], hstring.symm ▸ htag⟩ .done

/-! ## Parsing -/

/-- Parsing a template loses nothing if and only if the template is texts and tags where no comment
has a closing brace inside, and where a comment is empty only at the end. -/
theorem parse_losesNothing_iff {m : Template} (h : parse t = .ok m) :
    LosesNothing t m ↔ ∃ pieces last, Lexed t pieces last ∧ CommentsFit pieces last := by
  unfold parse at h
  split_ifs at h with hnil
  · injection h with h
    subst hnil h
    exact ⟨fun _ => ⟨[], [], .last free_nil, trivial⟩, fun _ => losesNothing_of_covers .done⟩
  · obtain ⟨q, hq, h⟩ := Except.ok_of_bind h
    by_cases hblocks : q.blocks = []
    · rw [if_neg (not_not.mpr hblocks)] at h
      obtain ⟨_, -, h⟩ := Except.ok_of_bind h
      injection h with h
      have hfragments : m.fragments = q.fragments ++ q.ending := by
        rw [← h, Parser.ending]
        dsimp only
        split_ifs
        · rfl
        · rw [List.append_nil]
      have hactions : m.actions = q.actions := by rw [← h]
      constructor
      · intro hloses
        obtain ⟨frags, acts, hrecords, -, hfits⟩ := parseLoop_records hq rfl
        have hcovers := hloses.covers
        rw [hfragments, hactions, hrecords.fragments, hrecords.actions] at hcovers
        exact hfits hcovers
      · rintro ⟨pieces, last, hlex, hfits⟩
        obtain ⟨frags, acts, hrecords, hcovers⟩ :=
          parseLoop_covers (p := ⟨0, 0, [], [], []⟩) hlex hfits rfl (Nat.zero_le _) rfl hq
        apply losesNothing_of_covers
        rw [hfragments, hactions, hrecords.fragments, hrecords.actions]
        exact hcovers
    · rw [if_pos hblocks] at h
      nomatch h

/-- A comment between texts. -/
def remark (text : Bytes) : Bytes := str "a" ++ OPEN ++ BANG :: (text ++ CLOSE) ++ str "b"

theorem parse_losesNothing_remark :
    LosesNothing (remark (str "c"))
      ⟨remark (str "c"), [(0, 1), (7, 8)], [⟨.Ignore, 4, 5, 0⟩]⟩ ↔
    ∃ pieces last, Lexed (remark (str "c")) pieces last ∧ CommentsFit pieces last :=
  parse_losesNothing_iff (by decide)

/-- The character behind an empty comment is in no fragment. -/
theorem not_parse_losesNothing : ¬ ∀ (t : Bytes) (m : Template), parse t = .ok m →
    LosesNothing t m := by
  intro h
  have hparse : parse (remark []) = .ok ⟨remark [], [(0, 1)], [⟨.Ignore, 4, 5, 0⟩]⟩ := by
    decide
  obtain ⟨next, htag, hrest⟩ := (h _ _ hparse).covers.tag_inv
  rw [hrest.stops] at htag
  obtain ⟨kind, name, hspells⟩ := htag
  obtain ⟨text, hz, hfree⟩ := comment_of_spells (a := []) (z := CLOSE ++ str "b") hspells nofun
  have hlast := congrArg List.getLast? hz
  rw [List.getLast?_append_of_ne_nil _ (by decide), List.getLast?_append_of_ne_nil _ (by decide)]
    at hlast
  revert hlast
  decide

end Suil.Mustache
