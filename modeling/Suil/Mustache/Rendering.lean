import Suil.Mustache.Parsing

set_option autoImplicit false

/-! # What rendering writes

`render` has one index for the fragments and the actions, and reaches the reference's text of the
tags at the index as long as none of these happens (`Regular`): a section of a single value repeats
the text in front of it and is rendered in the context around it; a section that is not rendered ends
at the first closing tag of its name, and one of a list at the first tag of its name; a value that is
not there is written `false`, and a member is found by the start of its name. -/

namespace Suil.Mustache

open Json (Object)

variable {ν : Type}

/-! ## Regular templates -/

/-- The member that is looked up is the one with the name. -/
def Finds (ctx : Object ν) (name : Bytes) : Prop :=
  ∃ ms, ctx = some (.object ms) ∧
    ∀ x, ms.find? (fun x => strncmpEq name.length x.1 name) = some x → x.1 = name

/-- A boolean, a number or a string. -/
def Printable : Object ν → Prop
  | some (.bool _) => True
  | some (.number _) => True
  | some (.string _) => True
  | _ => False

/-- A value that a section is rendered once for. -/
def single : Object ν → Bool
  | some (.array _) => false
  | val => !val.empty

/-- The names that the rendering of tags in a context compares with the name to stop at: a section of
a single value is gone through in the context around it. -/
def met (ctx : Object ν) : Forest → List Bytes
  | .nil => []
  | .leaf _ _ name rest => name :: met ctx rest
  | .block _ inverted name body _ rest =>
      name :: ((if !inverted && single (valueOf ctx name) then met ctx body else []) ++ met ctx rest)

def RegularLeaf (env : Env ν) (ctx : Object ν) (tag : Leaf) (name : Bytes) : Prop :=
  match tag with
  | .comment => True
  | .escaped => Finds ctx name ∧ Printable (valueOf ctx name)
  | .raw => Finds ctx name ∧ Printable (valueOf ctx name)
  | .included => ∃ x, env.load name ctx = .ok x

/-- Tags that are rendered as they are meant. -/
def Regular (env : Env ν) (ctx : Object ν) : Forest → Prop
  | .nil => True
  | .leaf _ tag name rest => RegularLeaf env ctx tag name ∧ Regular env ctx rest
  | .block text inverted name body _ rest =>
      let val := valueOf ctx name
      Finds ctx name ∧
        (inverted = false → val.empty = true →
          ∀ x ∈ body.pieces, x.kind = .CloseBlock → nameEq x.name name = false) ∧
        (inverted = false → ∀ es, val = some (.array es) →
          ∀ e ∈ es, Regular env (some e) body ∧ ∀ x ∈ met (some e) body, nameEq x name = false) ∧
        (inverted = false → single val = true →
          Regular env ctx body ∧ text ++ meaning env ctx body = meaning env val body) ∧
        Regular env ctx rest

/-! ## Values -/

theorem nameEq_self (name : Bytes) : nameEq name name = true := by
  rw [nameEq, strncmpEq_self, decide_eq_true rfl, Bool.and_true]

/-- Two searches agree if the first hit of the wider one is a hit of the narrower one. -/
private theorem find?_eq_of_first {α : Type} {p q : α → Bool} (hqp : ∀ x, q x = true → p x = true)
    {l : List α} (hfirst : ∀ x, l.find? p = some x → q x = true) : l.find? p = l.find? q := by
  induction l with
  | nil => rfl
  | cons x l ih =>
      by_cases hx : p x = true
      · rw [List.find?_cons_of_pos hx,
          List.find?_cons_of_pos (hfirst x (List.find?_cons_of_pos hx))]
      · rw [List.find?_cons_of_neg hx, List.find?_cons_of_neg (fun hq => hx (hqp x hq))]
        apply ih
        intro y hy
        exact hfirst y ((List.find?_cons_of_neg hx).trans hy)

theorem lookUp_finds {ctx : Object ν} {name : Bytes} (h : Finds ctx name) :
    lookUp ctx name = .ok (valueOf ctx name) := by
  obtain ⟨ms, rfl, hfinds⟩ := h
  have hsame : ms.find? (fun x => strncmpEq name.length x.1 name) =
      ms.find? fun x => decide (x.1 = name) := by
    apply find?_eq_of_first
    · intro x hx
      rw [of_decide_eq_true hx]
      exact strncmpEq_self _ _
    · intro x hx
      exact decide_eq_true (hfinds x hx)
  rw [lookUp, Object.get, hsame]
  rfl

theorem renderValue_printable {env : Env ν} {t : Bytes} {act : Action} {val : Object ν}
    (h : Printable val) :
    renderValue env t act val = .ok (valueText env (decide (act.tag = .UnEscapeTag)) val) := by
  match val, h with
  | some (.bool b), _ => rfl
  | some (.number n), _ => rfl
  | some (.string s), _ =>
      rw [renderValue, valueText]
      by_cases hraw : act.tag = .UnEscapeTag
      · rw [if_pos hraw, if_pos (decide_eq_true hraw)]
      · rw [if_neg hraw, if_neg (by simpa using hraw)]

/-! ## Runs -/

/-- At the index `i` the rendering returns `r`, with any fuel that is enough. -/
def Runs (env : Env ν) (m : Template) (ctx : Object ν) (i : Nat) (stop : Option Bytes)
    (r : Nat × Bytes) : Prop :=
  ∀ fuel, m.fragments.length < i + fuel → render_Internal env m fuel ctx i stop = .ok r

/-- The tag of this piece at the index `i` is rendered with the result `r`. -/
def TagRuns (env : Env ν) (m : Template) (ctx : Object ν) (x : Piece) (i : Nat) (r : Nat × Bytes) :
    Prop :=
  ∀ act fuel, act.tag = x.kind → tagString m.body act = x.name → i < m.fragments.length →
    m.fragments.length ≤ i + fuel →
      render_Tag env m (fun ctx index stop => render_Internal env m fuel ctx index (some stop)) act
        ctx i = .ok r

section
variable {env : Env ν} {m : Template} {ctx : Object ν} {i : Nat} {x : Piece} {pieces : List Piece}
  {last : Bytes}

/-- The first of the pieces, and what is behind it. -/
theorem Describes.head (h : Describes m i (x :: pieces) last) :
    ∃ frag act, m.fragments[i]? = some frag ∧ fragString m.body frag = x.text ∧
      m.actions[i]? = some act ∧ act.tag = x.kind ∧ tagString m.body act = x.name ∧
      Describes m (i + 1) pieces last := by
  obtain ⟨frag, frags, hfrags, htext, htexts⟩ := List.map_eq_cons_iff.mp h.texts
  obtain ⟨act, acts, hacts, htag, htags⟩ := List.map_eq_cons_iff.mp h.tags
  injection htag with hkind hname
  refine ⟨frag, act, ?_, htext, ?_, hkind, hname, ?_, ?_⟩
  · rw [← List.head?_drop, hfrags]
    rfl
  · rw [← List.head?_drop, hacts]
    rfl
  · rw [← List.drop_drop, hfrags]
    exact htexts
  · rw [← List.drop_drop, hacts]
    exact htags

theorem Describes.tail (h : Describes m i (x :: pieces) last) : Describes m (i + 1) pieces last := by
  obtain ⟨_, _, _, _, _, _, _, hrest⟩ := h.head
  exact hrest

theorem Describes.drop {xs : List Piece} (h : Describes m i (xs ++ pieces) last) :
    Describes m (i + xs.length) pieces last := by
  induction xs generalizing i with
  | nil => exact h
  | cons x xs ih =>
      have hrest := ih h.tail
      rw [Nat.add_assoc, Nat.add_comm 1] at hrest
      exact hrest

theorem Describes.lt (h : Describes m i (x :: pieces) last) : i < m.fragments.length := by
  obtain ⟨_, _, hfrag, _⟩ := h.head
  exact (List.getElem?_eq_some_iff.mp hfrag).1

/-- The rendering stops in front of a tag with the name to stop at. -/
theorem render_stop {stop : Bytes} {fuel : Nat} (h : Describes m i (x :: pieces) last)
    (hstop : nameEq x.name stop = true) (hfuel : 0 < fuel) :
    render_Internal env m fuel ctx i (some stop) = .ok (i, x.text) := by
  obtain ⟨frag, act, hfrag, htext, hact, _, hname, _⟩ := h.head
  obtain ⟨fuel, rfl⟩ := Nat.exists_eq_add_of_lt hfuel
  have hany : ((some stop).any fun stop => nameEq (tagString m.body act) stop) = true := by
    rw [hname]
    exact hstop
  rw [Nat.zero_add, render_Internal, hfrag]
  dsimp only
  rw [hact]
  dsimp only
  rw [if_pos hany, htext]

theorem runs_stop {stop : Bytes} (h : Describes m i (x :: pieces) last)
    (hstop : nameEq x.name stop = true) : Runs env m ctx i (some stop) (i, x.text) := by
  intro fuel hfuel
  have hlt := h.lt
  exact render_stop h hstop (by omega)

/-- A text, its tag and what comes behind the index that the tag leaves. -/
theorem runs_tag {stop : Option Bytes} {j k : Nat} {y z : Bytes}
    (h : Describes m i (x :: pieces) last) (hstop : ∀ s ∈ stop, nameEq x.name s = false)
    (htag : TagRuns env m ctx x i (j, y)) (hj : i ≤ j) (hrest : Runs env m ctx (j + 1) stop (k, z)) :
    Runs env m ctx i stop (k, x.text ++ y ++ z) := by
  obtain ⟨frag, act, hfrag, htext, hact, hkind, hname, _⟩ := h.head
  intro fuel hfuel
  have hlt := h.lt
  obtain ⟨fuel, rfl⟩ : ∃ n, fuel = n + 1 := ⟨fuel - 1, by omega⟩
  have hany : ¬(stop.any fun stop => nameEq (tagString m.body act) stop) = true := by
    rw [Bool.not_eq_true, hname]
    cases stop with
    | none => rfl
    | some s => exact hstop s rfl
  rw [render_Internal, hfrag]
  dsimp only
  rw [hact]
  dsimp only
  rw [if_neg hany, htag act fuel hkind hname hlt (by omega), htext]
  dsimp only [bind, Except.bind]
  rw [hrest fuel (by omega)]

/-! ## Tags -/

theorem leaf_runs {tag : Leaf} {text name : Bytes} (h : RegularLeaf env ctx tag name) :
    TagRuns env m ctx ⟨text, tag.kind, name⟩ i (i, leafText env ctx tag name) := by
  intro act fuel hkind hname _ _
  dsimp only at hkind hname
  rw [render_Tag, hname, hkind]
  cases tag with
  | comment => rfl
  | escaped =>
      rw [Leaf.kind] at hkind ⊢
      dsimp only
      rw [lookUp_finds h.1]
      dsimp only [bind, Except.bind]
      rw [renderValue_printable h.2, hkind]
      rfl
  | raw =>
      rw [Leaf.kind] at hkind ⊢
      dsimp only
      rw [lookUp_finds h.1]
      dsimp only [bind, Except.bind]
      rw [renderValue_printable h.2, hkind]
      rfl
  | included =>
      obtain ⟨y, hy⟩ := h
      rw [Leaf.kind, leafText, hy]
      rfl

theorem close_runs {text name : Bytes} : TagRuns env m ctx ⟨text, .CloseBlock, name⟩ i (i, []) := by
  intro act fuel hkind _ _ _
  rw [render_Tag, hkind]

/-- An inverted section takes the text behind its tag, or leaves it out. -/
theorem else_runs {text name : Bytes} (hfinds : Finds ctx name)
    (h : Describes m (i + 1) (x :: pieces) last) :
    TagRuns env m ctx ⟨text, .ElseBlock, name⟩ i
      (i + 1, if (valueOf ctx name).empty then x.text else []) := by
  obtain ⟨frag, _, hfrag, htext, _⟩ := h.head
  intro act fuel hkind hname _ _
  dsimp only at hkind hname
  rw [render_Tag, hname, hkind]
  dsimp only
  rw [lookUp_finds hfinds]
  dsimp only [bind, Except.bind]
  rw [hfrag]
  dsimp only
  rw [htext]
  split_ifs <;> rfl

/-- The actions are skipped up to the first close action of the name. -/
theorem skipBlock_pieces {t name : Bytes} {acts : List Action} {id : Nat} {xs : List Piece}
    (h : acts.map (fun a => (a.tag, tagString t a)) =
      (xs ++ x :: pieces).map fun x => (x.kind, x.name))
    (hno : ∀ y ∈ xs, y.kind = .CloseBlock → nameEq y.name name = false)
    (hkind : x.kind = .CloseBlock) (hname : nameEq x.name name = true) :
    skipBlock t name acts id = id + xs.length := by
  induction xs generalizing acts id with
  | nil =>
      obtain ⟨act, acts, rfl, htag, _⟩ := List.map_eq_cons_iff.mp h
      injection htag with hact hactname
      rw [skipBlock, hact, hactname, hkind, hname]
      rfl
  | cons y xs ih =>
      obtain ⟨act, acts, rfl, htag, htags⟩ := List.map_eq_cons_iff.mp h
      injection htag with hact hactname
      have hgo : ¬(nameEq (tagString t act) name && decide (act.tag = .CloseBlock)) = true := by
        rw [Bool.and_eq_true, decide_eq_true_iff, hact, hactname]
        rintro ⟨heq, hclose⟩
        rw [hno y List.mem_cons_self hclose] at heq
        exact Bool.false_ne_true heq
      rw [skipBlock, if_neg hgo, ih htags fun z hz => hno z (List.mem_cons_of_mem y hz),
        List.length_cons, Nat.add_assoc, Nat.add_comm 1]

/-- A section of an empty value is skipped. -/
theorem skip_runs {text name : Bytes} {xs : List Piece} (hfinds : Finds ctx name)
    (hempty : (valueOf ctx name).empty = true)
    (h : Describes m i (⟨text, .OpenBlock, name⟩ :: xs ++ x :: pieces) last)
    (hno : ∀ y ∈ xs, y.kind = .CloseBlock → nameEq y.name name = false)
    (hkind : x.kind = .CloseBlock) (hclose : x.name = name) :
    TagRuns env m ctx ⟨text, .OpenBlock, name⟩ i (i + (xs.length + 1), []) := by
  intro act fuel hact hname _ _
  dsimp only at hact hname
  have hskip : skipBlock m.body name (m.actions.drop i) i = i + (xs.length + 1) := by
    refine skipBlock_pieces h.tags ?_ hkind (hclose ▸ nameEq_self name)
    intro y hy hykind
    rcases List.mem_cons.mp hy with rfl | hy
    · nomatch hykind
    · exact hno y hy hykind
  rw [render_Tag, hname, hact]
  dsimp only
  rw [lookUp_finds hfinds]
  dsimp only [bind, Except.bind]
  rw [if_pos hempty, hskip]

theorem renderEach_runs {again : Object ν → Except RenderFault (Nat × Bytes)} {j : Nat}
    {g : Json ν → Bytes} {es : List (Json ν)} (h : ∀ e ∈ es, again (some e) = .ok (j, g e)) :
    ∀ id, renderEach again es id = .ok (if es = [] then id else j, es.flatMap g) := by
  induction es with
  | nil => exact fun _ => rfl
  | cons e es ih =>
      intro id
      rw [renderEach, h e List.mem_cons_self]
      dsimp only [bind, Except.bind]
      rw [ih (fun e' he' => h e' (List.mem_cons_of_mem e he')) j, ite_self]
      rfl

/-- A section of a list is rendered once for every element. -/
theorem each_runs {text name : Bytes} {es : List (Json ν)} {j : Nat} {g : Json ν → Bytes}
    (hfinds : Finds ctx name) (hval : valueOf ctx name = some (.array es)) (hne : es ≠ [])
    (h : ∀ e ∈ es, Runs env m (some e) (i + 1) (some name) (j, g e)) :
    TagRuns env m ctx ⟨text, .OpenBlock, name⟩ i (j, es.flatMap g) := by
  intro act fuel hact hname _ hfuel
  dsimp only at hact hname
  have hempty : ¬(Object.empty (some (.array es) : Object ν)) = true := by
    rw [Object.empty, List.isEmpty_iff]
    exact hne
  rw [render_Tag, hname, hact]
  dsimp only
  rw [lookUp_finds hfinds, hval]
  dsimp only [bind, Except.bind]
  rw [if_neg hempty, renderEach_runs (fun e he => h e he fuel (by omega)), if_neg hne]

theorem not_empty_of_single {val : Object ν} (h : single val = true) : val.empty = false := by
  unfold single at h
  split at h
  · nomatch h
  · exact (Bool.not_eq_true' _).mp h

/-- In a section of another value the text in front of the section is rendered again, and the
rendering goes on inside of the section. -/
theorem once_runs {text name : Bytes} (hfinds : Finds ctx name)
    (hsingle : single (valueOf ctx name) = true)
    (h : Describes m i (⟨text, .OpenBlock, name⟩ :: pieces) last) :
    TagRuns env m ctx ⟨text, .OpenBlock, name⟩ i (i, text) := by
  intro act fuel hact hname hlt hfuel
  dsimp only at hact hname
  have hfuel' : 0 < fuel := by omega
  rw [render_Tag, hname, hact]
  dsimp only
  rw [lookUp_finds hfinds]
  dsimp only [bind, Except.bind]
  rw [not_empty_of_single hsingle, if_neg Bool.false_ne_true]
  split
  · next es hval =>
    rw [hval] at hsingle
    nomatch hsingle
  · exact render_stop h (nameEq_self name) hfuel'

/-! ## Templates -/

section
variable {body rest : Forest} {text name post : Bytes}

theorem meaning_inverted : meaning env ctx (.block text true name .nil post rest) =
    text ++ (if (valueOf ctx name).empty then post else []) ++ meaning env ctx rest := by
  rw [meaning]
  rfl

theorem meaning_empty (h : (valueOf ctx name).empty = true) :
    meaning env ctx (.block text false name body post rest) =
      text ++ [] ++ meaning env ctx rest := by
  rw [meaning, if_neg Bool.false_ne_true, if_pos h]

theorem meaning_array {es : List (Json ν)} (hne : es ≠ [])
    (h : valueOf ctx name = some (.array es)) :
    meaning env ctx (.block text false name body post rest) =
      text ++ (es.flatMap fun e => meaning env (some e) body ++ post) ++ meaning env ctx rest := by
  have hempty : ¬(Object.empty (some (.array es) : Object ν)) = true := by
    rw [Object.empty, List.isEmpty_iff]
    exact hne
  rw [meaning, if_neg Bool.false_ne_true, h, if_neg hempty]

theorem meaning_single (h : single (valueOf ctx name) = true) :
    meaning env ctx (.block text false name body post rest) =
      text ++ (meaning env (valueOf ctx name) body ++ post) ++ meaning env ctx rest := by
  rw [meaning, if_neg Bool.false_ne_true, not_empty_of_single h, if_neg Bool.false_ne_true]
  split
  · next es hval =>
    rw [hval] at h
    nomatch h
  · rfl

end

/-- An empty value, a list that is not empty, or a single value. -/
theorem value_cases (val : Object ν) :
    val.empty = true ∨ (∃ es, es ≠ [] ∧ val = some (.array es)) ∨ single val = true := by
  cases hempty : val.empty with
  | true => exact .inl rfl
  | false =>
      right
      cases hsingle : single val with
      | true => exact .inr rfl
      | false =>
          left
          unfold single at hsingle
          split at hsingle
          · next es =>
            refine ⟨es, ?_, rfl⟩
            rintro rfl
            nomatch hempty
          · rw [hempty] at hsingle
            nomatch hsingle

/-- Regular tags are rendered as they are meant, from any index where the template has them. -/
theorem runs_meaning {f : Forest} {stop : Option Bytes} {k : Nat} {z : Bytes}
    (h : Describes m i (f.pieces ++ pieces) last) (hflat : f.Flat) (hreg : Regular env ctx f)
    (hstop : ∀ s ∈ stop, ∀ name ∈ met ctx f, nameEq name s = false)
    (hrest : Runs env m ctx (i + f.pieces.length) stop (k, z)) :
    Runs env m ctx i stop (k, meaning env ctx f ++ z) := by
  induction f generalizing ctx i pieces stop k z with
  | nil => exact hrest
  | leaf text tag name rest ih =>
      obtain ⟨hleaf, hreg⟩ := hreg
      rw [meaning, List.append_assoc]
      apply runs_tag h _ (leaf_runs hleaf) (Nat.le_refl i)
      · apply ih h.tail hflat hreg
        · intro s hs x hx
          exact hstop s hs x (List.mem_cons_of_mem _ hx)
        · rw [Forest.pieces, List.length_cons, Nat.add_comm _ 1, ← Nat.add_assoc] at hrest
          exact hrest
      · intro s hs
        exact hstop s hs name List.mem_cons_self
  | block text inverted name body post rest ihbody ihrest =>
      obtain ⟨hfinds, hempty, harray, honce, hreg⟩ := hreg
      obtain ⟨hnil, hflatbody, hflatrest⟩ := hflat
      have hname : ∀ s ∈ stop, nameEq name s = false :=
        fun s hs => hstop s hs name List.mem_cons_self
      -- the pieces of the block: its tag, those inside, the closing tag, those behind
      have h0 : Describes m i (⟨text, Forest.opener inverted, name⟩ :: (body.pieces ++
          ⟨post, .CloseBlock, name⟩ :: (rest.pieces ++ pieces))) last := by
        rw [Forest.pieces, List.cons_append, List.append_assoc, List.cons_append] at h
        exact h
      have h1 := h0.tail
      have h2 := h1.drop
      have h3 := h2.tail
      have hgo : Runs env m ctx (i + 1 + body.pieces.length + 1) stop
          (k, meaning env ctx rest ++ z) := by
        apply ihrest h3 hflatrest hreg
        · intro s hs x hx
          exact hstop s hs x (List.mem_cons_of_mem _ (List.mem_append_right _ hx))
        · have hlen : i + 1 + body.pieces.length + 1 + rest.pieces.length =
              i + (Forest.block text inverted name body post rest).pieces.length := by
            rw [Forest.pieces, List.length_cons, List.length_append, List.length_cons]
            omega
          rw [hlen]
          exact hrest
      cases inverted with
      | true =>
          obtain rfl := hnil rfl
          rw [meaning_inverted, List.append_assoc]
          exact runs_tag h0 hname (else_runs hfinds h1) (Nat.le_succ i) hgo
      | false =>
          rcases value_cases (valueOf ctx name) with hval | ⟨es, hne, hval⟩ | hval
          · rw [meaning_empty hval, List.append_assoc]
            apply runs_tag h0 hname (skip_runs hfinds hval h0 (hempty rfl hval) rfl rfl)
              (Nat.le_add_right _ _)
            rw [Nat.add_comm body.pieces.length 1, ← Nat.add_assoc i 1]
            exact hgo
          · rw [meaning_array hne hval, List.append_assoc]
            apply runs_tag h0 hname (each_runs hfinds hval hne _) _ hgo
            · intro e he
              obtain ⟨hregbody, hmet⟩ := harray rfl es hval e he
              apply ihbody h1 hflatbody hregbody
              · intro s hs x hx
                obtain rfl := Option.mem_some_iff.mp hs
                exact hmet x hx
              · exact runs_stop h2 (nameEq_self name)
            · omega
          · obtain ⟨hregbody, htext⟩ := honce rfl hval
            have hinside : Runs env m ctx (i + 1) stop
                (k, meaning env ctx body ++ (post ++ [] ++ (meaning env ctx rest ++ z))) := by
              apply ihbody h1 hflatbody hregbody
              · intro s hs x hx
                apply hstop s hs
                refine List.mem_cons_of_mem _ (List.mem_append_left _ ?_)
                rw [hval]
                exact hx
              · exact runs_tag h2 hname close_runs (Nat.le_refl _) hgo
            have hrun := runs_tag h0 hname (once_runs hfinds hval h0) (Nat.le_refl i) hinside
            rw [meaning_single hval, ← htext]
            simp only [List.append_assoc, List.append_nil] at hrun ⊢
            exact hrun

theorem runs_end {stop : Option Bytes} (h : m.fragments.length = i) :
    Runs env m ctx i stop (i, []) := by
  intro fuel hfuel
  obtain ⟨fuel, rfl⟩ : ∃ n, fuel = n + 1 := ⟨fuel - 1, by omega⟩
  rw [render_Internal, List.getElem?_eq_none_iff.mpr (Nat.le_of_eq h)]

/-- The text behind the last tag is a fragment without an action, if it is there. -/
theorem runs_last (hi : i ≤ m.fragments.length) (h : Describes m i [] last) :
    ∃ k, Runs env m ctx i none (k, last) := by
  have hlen := congrArg List.length h.texts
  rw [List.length_map, List.length_drop, List.map_nil, List.nil_append] at hlen
  by_cases hlast : last = []
  · rw [if_pos hlast, List.length_nil] at hlen
    exact ⟨i, hlast ▸ runs_end (by omega)⟩
  · have htexts := h.texts
    rw [if_neg hlast, List.map_nil, List.nil_append] at htexts
    rw [if_neg hlast, List.length_singleton] at hlen
    obtain ⟨frag, frags, hfrags, htext, _⟩ := List.map_eq_cons_iff.mp htexts
    have hfrag : m.fragments[i]? = some frag := by
      rw [← List.head?_drop, hfrags]
      rfl
    have hact : m.actions[i]? = none := by
      rw [← List.head?_drop, List.map_eq_nil_iff.mp h.tags]
      rfl
    have hend : Runs env m ctx (i + 1) none (i + 1, []) := runs_end (by omega)
    refine ⟨i + 1, fun fuel hfuel => ?_⟩
    obtain ⟨fuel, rfl⟩ : ∃ n, fuel = n + 1 := ⟨fuel - 1, by omega⟩
    rw [render_Internal, hfrag]
    dsimp only
    rw [hact]
    dsimp only
    rw [hend fuel (by omega), htext]
    dsimp only [bind, Except.bind]
    rw [List.append_nil]

end

/-- A template whose comments have a text without braces and whose tags are regular renders the text
that it stands for. -/
theorem faithful_of_regular {env : Env ν} {t last : Bytes} {ctx : Object ν} {f : Forest}
    (hlex : Lexed t f.pieces last) (hplain : ∀ x ∈ f.pieces, PlainComment x.kind x.name)
    (hreg : Regular env ctx f) : Faithful env t ctx := by
  intro m hparse
  obtain ⟨hdesc, hends⟩ := parse_describes hlex hplain hparse
  have hflat : f.Flat := flat_of_ends hends
  have hdesc' : Describes m 0 (f.pieces ++ []) last := by rw [List.append_nil]; exact hdesc
  have hle : 0 + f.pieces.length ≤ m.fragments.length := by
    have hlen := congrArg List.length hdesc.texts
    rw [List.drop_zero, List.length_map, List.length_append, List.length_map] at hlen
    omega
  have hend : ∃ k, Runs env m ctx (0 + f.pieces.length) none (k, last) :=
    runs_last hle hdesc'.drop
  obtain ⟨k, hlast⟩ := hend
  have hrun := runs_meaning hdesc' hflat hreg (fun s hs => absurd hs (Option.not_mem_none s)) hlast
  refine ⟨meaning env ctx f ++ last, ?_, f, last, hlex, rfl⟩
  rw [render, hrun (m.fragments.length + 1) (by omega)]
  rfl

/-! ## A template that is regular, and one that is not -/

theorem free_of_notMem {text : Bytes} (h : LBRACE ∉ text) : Free OPEN (text ++ [LBRACE]) := by
  intro a b hab
  have hcount := congrArg (List.count LBRACE) hab
  simp only [OPEN, List.count_append, List.count_cons_self, List.count_nil,
    List.count_eq_zero.mpr h] at hcount
  omega

theorem literal_of_notMem {text : Bytes} (h : LBRACE ∉ text) : Free OPEN text := by
  rintro a b rfl
  simp [OPEN] at h

/-- Numbers without a fraction, and no partials. -/
def bare : Env Nat := ⟨showNat, fun _ _ => .error (.exception (str "no partials"))⟩

def listing : Bytes := str "Hi \x7b\x7b#l\x7d\x7d<\x7b\x7bx\x7d\x7d>\x7b\x7b/l\x7d\x7d!"

def entries : Object Nat :=
  some (.object [(str "l", .array [.object [(str "x", .string (str "a&b"))],
    .object [(str "x", .number 7)]])])

/-- The tags of `listing`. -/
def listingTags : Forest :=
  .block (str "Hi ") false (str "l") (.leaf (str "<") .escaped (str "x") .nil) (str ">") .nil

private theorem isName_letter {c : UInt8} (h : isAlpha c = true) : IsName [c] := by
  refine ⟨⟨c, [], rfl, .inl h⟩, ?_⟩
  intro d hd
  obtain rfl := List.mem_singleton.mp hd
  refine ⟨head_not_space (.inl h), ?_⟩
  rintro rfl
  nomatch h

/-- A tag without spaces, behind a text without braces. -/
private theorem lexed_piece (text : Bytes) (kind : ActionType) {c : UInt8} {rest last : Bytes}
    {pieces : List Piece} (htext : LBRACE ∉ text) (hkind : kind ≠ .Ignore) (hc : isAlpha c = true)
    (hrest : Lexed rest pieces last) :
    Lexed (text ++ (OPEN ++ (sign kind ++ [c] ++ CLOSE) ++ rest)) (⟨text, kind, [c]⟩ :: pieces)
      last := by
  have hspaces : Spaces [] := fun _ hm => nomatch hm
  have htag := Spells.named hkind (isName_letter hc) hspaces hspaces hspaces
  rw [List.nil_append, List.append_nil, List.append_nil] at htag
  exact .piece (free_of_notMem htext) htag hrest

private theorem lexed_listing : Lexed listing listingTags.pieces (str "!") := by
  have hlast : Lexed (str "!") [] (str "!") := .last (literal_of_notMem (by decide))
  have hlex := lexed_piece (str "Hi ") .OpenBlock (c := 108) (by decide) (by decide)
    (by decide) (lexed_piece (str "<") .Tag (c := 120) (by decide) (by decide) (by decide)
      (lexed_piece (str ">") .CloseBlock (c := 108) (by decide) (by decide) (by decide)
        hlast))
  have hpieces : listingTags.pieces = [⟨str "Hi ", .OpenBlock, [108]⟩, ⟨str "<", .Tag, [120]⟩,
      ⟨str ">", .CloseBlock, [108]⟩] := by decide
  rw [hpieces]
  convert hlex using 1
  decide

private theorem finds_only (name : Bytes) (v : Json ν) : Finds (some (.object [(name, v)])) name := by
  refine ⟨_, rfl, fun x hx => ?_⟩
  rw [List.mem_singleton.mp (List.mem_of_find?_eq_some hx)]

private theorem valueOf_only (name : Bytes) (v : Json ν) :
    valueOf (some (.object [(name, v)])) name = some v := by
  simp [valueOf]

private theorem regular_listing : Regular bare entries listingTags := by
  have hinside : ∀ v : Json Nat, Printable (some v) →
      Regular bare (some (.object [(str "x", v)])) (.leaf (str "<") .escaped (str "x") .nil) :=
    fun v hv => ⟨⟨finds_only _ v, (valueOf_only _ v).symm ▸ hv⟩, trivial⟩
  have hmet : nameEq (str "x") (str "l") = false := by decide
  refine ⟨finds_only _ _, fun _ hempty => ?_, fun _ es hes e he => ?_, fun _ hsingle => ?_, trivial⟩
  · rw [entries, valueOf_only] at hempty
    nomatch hempty
  · rw [entries, valueOf_only] at hes
    injection hes with hes
    injection hes with hes
    subst hes
    refine ⟨?_, fun name hname => List.mem_singleton.mp hname ▸ hmet⟩
    rcases List.mem_cons.mp he with rfl | he
    · exact hinside _ trivial
    · obtain rfl := List.mem_singleton.mp he
      exact hinside _ trivial
  · rw [entries, valueOf_only] at hsingle
    nomatch hsingle

theorem faithful_listing :
    ((parse listing).toOption.bind fun m => (render bare m entries).toOption) =
      some (str "Hi <a&amp;b><7>!") ∧ Faithful bare listing entries := by
  refine ⟨by decide +kernel, faithful_of_regular lexed_listing ?_ regular_listing⟩
  decide +kernel

/-- Without the sign of comments there are no comments. -/
theorem plain_of_notMem {t last : Bytes} {pieces : List Piece} (h : Lexed t pieces last)
    (hbang : BANG ∉ t) : ∀ x ∈ pieces, PlainComment x.kind x.name := by
  induction h with
  | last htext => exact fun x hx => nomatch hx
  | @piece text tag name rest last kind pieces htext htag hrest ih =>
      rw [List.mem_append, List.mem_append, not_or, not_or] at hbang
      intro x hx
      rcases List.mem_cons.mp hx with rfl | hx
      · rintro rfl
        cases htag with
        | named hkind hname ha hb hc => exact absurd rfl hkind
        | comment ha htext =>
            refine absurd ?_ hbang.2.1
            simp only [List.mem_append, List.mem_singleton, true_or, or_true]
      · exact ih hbang.2.2 x hx

def shout : Bytes := str "Say \x7b\x7b#c\x7d\x7dx\x7b\x7b/c\x7d\x7d"

def agreed : Object Nat := some (.object [(str "c", .bool true)])

/-- Two tags are a section with nothing but text inside, if the second one closes the first one. -/
private theorem block_of_tags {f : Forest} {name name' : Bytes}
    (h : f.pieces.map (fun x => (x.kind, x.name)) =
      [(.OpenBlock, name), (.CloseBlock, name')]) :
    ∃ text post, f = .block text false name .nil post .nil := by
  cases f with
  | nil => nomatch h
  | leaf text tag _ rest =>
      injection h with hhead
      injection hhead with hkind
      cases tag <;> nomatch hkind
  | block text inverted _ body post rest =>
      injection h with hhead htail
      injection hhead with hkind hname
      subst hname
      have hlen := congrArg List.length htail
      simp only [List.length_map, List.length_append, List.length_cons, List.length_nil] at hlen
      have hnil : ∀ g : Forest, g.pieces.length = 0 → g = .nil := by
        intro g hg
        cases g with
        | nil => rfl
        | leaf text tag name rest => nomatch hg
        | block text inverted name body post rest => nomatch hg
      obtain rfl := hnil body (by omega)
      obtain rfl := hnil rest (by omega)
      cases inverted with
      | true => nomatch hkind
      | false => exact ⟨text, post, rfl⟩

/-- The text in front of a section of a single value is written twice. -/
theorem not_faithful_shout : ¬Faithful bare shout agreed := by
  intro h
  have hparse : (parse shout).toOption.map (fun m => (m.fragments.map (fragString m.body),
      m.actions.map fun a => (a.tag, tagString m.body a))) =
      some ([str "Say ", str "x"], [(.OpenBlock, str "c"), (.CloseBlock, str "c")]) := by
    decide +kernel
  have hrender : (parse shout).toOption.bind (fun m => (render bare m agreed).toOption) =
      some (str "Say Say x") := by decide +kernel
  cases hm : parse shout with
  | error e =>
      rw [hm] at hparse
      nomatch hparse
  | ok m =>
      rw [hm] at hparse hrender
      injection hparse with hparse
      injection hparse with htexts htags
      obtain ⟨out, hout, f, last, hlex, rfl⟩ := h m hm
      obtain ⟨hdesc, -⟩ := parse_describes hlex (plain_of_notMem hlex (by decide)) hm
      obtain ⟨text, post, rfl⟩ := block_of_tags (hdesc.tags.symm.trans htags)
      have hlists := htexts.symm.trans hdesc.texts
      have hlast : last = [] := by
        by_contra hne
        rw [if_neg hne] at hlists
        nomatch hlists
      rw [if_pos hlast] at hlists
      injection hlists with htext hlists
      injection hlists with hpost _
      dsimp only at htext hpost
      have hout' : (render bare m agreed).toOption = some (str "Say Say x") := hrender
      rw [hout, ← htext, ← hpost, hlast] at hout'
      exact absurd hout' (by decide)

end Suil.Mustache
