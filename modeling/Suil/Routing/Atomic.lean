import Suil.Routing.Router

set_option autoImplicit false

/-! # Registrations that throw

`Router::internal_add_rule_object` (`http/routing.cpp`) enters a rule and then, when its pattern ends
in a slash, the twin of the pattern without it. When the twin is there already the second insertion
throws, and the first one stays. `atomic_iff` says for which routers and patterns that makes no
difference to where URLs are routed. -/

namespace Suil.Routing

open Backtrack

variable {δ A H : Type}

/-- Fewer values fit as well. -/
theorem RoutingParams.Fit.sublist {vs ws : List (ParamVal δ)} (h : vs.Sublist ws)
    (hfit : RoutingParams.Fit ws) : RoutingParams.Fit vs := by
  obtain ⟨hi, hu, hd, hs⟩ := hfit
  exact ⟨Nat.le_trans (h.filterMap _).length_le hi, Nat.le_trans (h.filterMap _).length_le hu,
    Nat.le_trans (h.filterMap _).length_le hd, Nat.le_trans (h.filterMap _).length_le hs⟩

namespace Trie

/-! ## A trie with another leaf -/

/-- The nodes of the first trie are in the second one with other rules, and with one more literal
edge at most each, which leads to a node without edges. -/
def Grown (t t' : Trie) : Prop :=
  ∀ i < t.nodes.length, (t'.node i).paramChildrens = (t.node i).paramChildrens ∧
    ((t'.node i).children = (t.node i).children ∨
      ∃ f j, (t'.node i).children = (t.node i).children ++ [(f, j)] ∧
        (t'.node j).paramChildrens = (fun _ => 0) ∧ (t'.node j).children = [])

/-- The edges that take no value. -/
def Literal (l : Step δ) : Prop := ∃ f, l = .lit f

private theorem searchFrom_leaf {t : Trie} {j : Nat} (hparam : (t.node j).paramChildrens = fun _ => 0)
    (hchildren : (t.node j).children = []) (lx : Strto δ) (fuel : Nat) (rest : Bytes) :
    t.searchFrom lx fuel rest j = .done ∨ ∃ m, t.searchFrom lx fuel rest j = .stop m := by
  cases fuel with
  | zero => exact .inl rfl
  | succ fuel =>
      by_cases hrest : rest = []
      · exact .inr ⟨_, by rw [searchFrom, if_pos hrest]⟩
      · have hedges : t.edges lx rest j = [] := by
          rw [edges, hparam, hchildren]
          simp only [if_true, List.filterMap_nil, List.append_nil]
          exact List.filterMap_eq_nil_iff.mpr fun _ _ => rfl
        refine .inl ?_
        rw [searchFrom, if_neg hrest, hedges]
        rfl

/-- The edges of a node with another one. -/
private theorem Grown.edges {t t' : Trie} (h : Grown t t') {i : Nat} (hi : i < t.nodes.length)
    (lx : Strto δ) (rest : Bytes) :
    ∃ xs, t'.edges lx rest i = t.edges lx rest i ++ xs ∧
      (xs = [] ∨ ∃ f rest' j, xs = [(.lit f, rest', j)] ∧
        (t'.node j).paramChildrens = (fun _ => 0) ∧ (t'.node j).children = []) := by
  obtain ⟨hparam, hchildren | ⟨f, j, hchildren, hleaf⟩⟩ := h i hi
  · refine ⟨[], ?_, .inl rfl⟩
    rw [Trie.edges, Trie.edges, hparam, hchildren, List.append_nil]
  · by_cases hprefix : f.isPrefixOf rest = true
    · refine ⟨[(.lit f, rest.drop f.length, j)], ?_, .inr ⟨f, _, j, rfl, hleaf⟩⟩
      rw [Trie.edges, Trie.edges, hparam, hchildren, List.filterMap_append, List.append_assoc]
      simp only [List.filterMap_cons, if_pos hprefix, List.filterMap_nil]
    · refine ⟨[], ?_, .inl rfl⟩
      rw [Trie.edges, Trie.edges, hparam, hchildren, List.filterMap_append, List.append_nil]
      simp only [List.filterMap_cons, if_neg hprefix, List.filterMap_nil, List.append_nil]

/-- The search of a grown trie explores the same edges and more. -/
theorem Grown.grafted {t t' : Trie} (h : Grown t t') (hb : t.Built) (lx : Strto δ) (fuel : Nat)
    (rest : Bytes) {i : Nat} (hi : i < t.nodes.length) :
    SearchTree.Grafted Literal (t.searchFrom lx fuel rest i) (t'.searchFrom lx fuel rest i) := by
  induction fuel generalizing rest i with
  | zero => exact .done
  | succ fuel ih =>
      rw [searchFrom, searchFrom]
      by_cases hrest : rest = []
      · rw [if_pos hrest, if_pos hrest]
        exact .stop _ _
      · obtain ⟨xs, hedges, hxs⟩ := h.edges hi lx rest
        rw [if_neg hrest, if_neg hrest, hedges, List.map_append]
        apply SearchTree.Grafted.node
        · rw [List.forall₂_map_left_iff, List.forall₂_map_right_iff, List.forall₂_same]
          intro e he
          refine ⟨rfl, ih _ ?_⟩
          rcases (hb.mem_edges lx rest i e).mp he with ⟨k, v, rest', j, -, hnext, rfl⟩ |
            ⟨c, rest', j, -, hnext, rfl⟩
          · exact (hb.up hnext).2
          · exact (hb.up hnext).2
        · rcases hxs with rfl | ⟨f, rest', j, rfl, hparam, hchildren⟩
          · exact .done
          · show SearchTree.Grafted Literal .done
              (.branch (.lit f) (t'.searchFrom lx fuel rest' j) .done)
            rcases searchFrom_leaf hparam hchildren lx fuel rest' with hsub | ⟨m, hsub⟩
            · rw [hsub]
              exact .dead ⟨f, rfl⟩
            · rw [hsub]
              exact .leaf ⟨f, rfl⟩ m

/-- What fits in a search still fits after the trie has grown. -/
theorem Grown.fits [DecidableEq δ] {t t' : Trie} (h : Grown t t') (hb : t.Built) (hb' : t'.Built)
    {lx : Strto δ} {url : Bytes} (hfits : t.Fits lx url) : t'.Fits lx url := by
  unfold Fits at *
  rw [← SearchTree.trace_nil (wf_search hb.wf lx url)] at hfits
  rw [← SearchTree.trace_nil (wf_search hb'.wf lx url)]
  refine (h.grafted hb lx _ url hb.pos).allFit ?_ ?_ (List.Sublist.refl []) ?_ hfits
  · exact fun p q hle hfit => hfit.sublist (hle.filterMap _)
  · rintro l p ⟨f, rfl⟩ hfit
    rw [values, List.filterMap_append]
    exact (List.append_nil (values p)).symm ▸ hfit
  · exact ⟨Nat.zero_le _, Nat.zero_le _, Nat.zero_le _, Nat.zero_le _⟩

/-! ## What `add` leaves of the nodes -/

theorem followAll_of_goto {t : Trie} {i j : Nat} {ks : List Key} (h : t.goto i ks = some j) :
    t.followAll i ks = (t, j) := by
  induction ks generalizing i with
  | nil => rw [followAll, Option.some.inj h]
  | cons k ks ih =>
      rw [goto] at h
      cases hnext : (t.node i).next k with
      | none =>
          rw [hnext] at h
          cases h
      | some a =>
          rw [hnext] at h
          rw [followAll, follow, hnext]
          exact ih h

private theorem goto_of_ruleAt {t : Trie} {ks : List Key} (h : t.ruleAt ks ≠ 0) :
    ∃ j, t.goto 0 ks = some j ∧ (t.node j).ruleIndex = t.ruleAt ks := by
  unfold ruleAt at *
  cases hgoto : t.goto 0 ks with
  | none =>
      rw [hgoto] at h
      exact absurd rfl h
  | some j => exact ⟨j, rfl, rfl⟩

/-- A call that throws leaves the trie as it is. -/
theorem add_thrown {t : Trie} {p : Pattern} (h : t.ruleAt p.keys ≠ 0) (r : Nat) :
    t.add p.text r = .thrown t := by
  obtain ⟨j, hgoto, hrule⟩ := goto_of_ruleAt h
  rw [add, addLoop_text p _ (Nat.le_refl _), followAll_of_goto hgoto]
  dsimp only
  rw [if_pos (hrule ▸ h)]

private theorem node_set_rule {t : Trie} {j : Nat} (hj : j < t.nodes.length) (r i : Nat) :
    ((t.set j { t.node j with ruleIndex := r }).node i).paramChildrens = (t.node i).paramChildrens ∧
      ((t.set j { t.node j with ruleIndex := r }).node i).children = (t.node i).children := by
  by_cases hi : i = j
  · subst hi
    rw [node_set_self hj]
    exact ⟨rfl, rfl⟩
  · rw [node_set_ne _ hi]
    exact ⟨rfl, rfl⟩

/-- A pattern with one more character than a registered one adds at most a leaf. -/
theorem grown_add {t t' : Trie} (hb : t.Built) {p q : Pattern} {c : UInt8} {r : Nat}
    (hkeys : p.keys = q.keys ++ [.chr c]) (hq : t.ruleAt q.keys ≠ 0)
    (h : t.add p.text r = .done t') : Grown t t' := by
  obtain ⟨v, hgoto, -⟩ := goto_of_ruleAt hq
  have hfollow : t.followAll 0 p.keys = t.follow v (.chr c) := by
    rw [hkeys, followAll_append, followAll_of_goto hgoto]
    rfl
  have hv : v < t.nodes.length := by
    have hlt := (followAll_spec hb hb.pos q.keys).2.2.1
    rw [followAll_of_goto hgoto] at hlt
    exact hlt
  rw [add, addLoop_text p _ (Nat.le_refl _), hfollow] at h
  dsimp only at h
  split at h
  · cases h
  · obtain rfl := Added.done.inj h
    intro i hi
    rw [follow]
    cases hnext : (t.node v).next (.chr c) with
    | some j =>
        -- the node is there, and only gets the rule
        obtain ⟨hparam, hchildren⟩ := node_set_rule (hb.up hnext).2 r i
        exact ⟨hparam, .inl hchildren⟩
    | none =>
        dsimp only
        generalize hnew : t.newNode.set v ((t.node v).link t.nodes.length (.chr c)) = u
        have hlength : u.nodes.length = t.nodes.length + 1 := by
          rw [← hnew, nodes_set_length, nodes_newNode_length]
        have hlast : t.nodes.length < u.nodes.length := by omega
        obtain ⟨hparam, hchildren⟩ := node_set_rule hlast r i
        obtain ⟨hparam', hchildren'⟩ := node_set_rule hlast r t.nodes.length
        rw [hparam, hchildren]
        by_cases hiv : i = v
        · subst hiv
          have hself : u.node i = (t.node i).link t.nodes.length (.chr c) := by
            rw [← hnew, node_set_self (by rw [nodes_newNode_length]; omega)]
          have hleaf : u.node t.nodes.length = {} := by
            rw [← hnew, node_set_ne _ (by omega), node_newNode,
              node_of_length_le (Nat.le_refl _)]
          rw [hself]
          refine ⟨rfl, .inr ⟨[c], t.nodes.length, rfl, ?_, ?_⟩⟩
          · rw [hparam', hleaf]
          · rw [hchildren', hleaf]
        · have hsame : u.node i = t.node i := by
            rw [← hnew, node_set_ne _ hiv, node_newNode]
          rw [hsame]
          exact ⟨rfl, .inl rfl⟩

/-! ## Which rule is selected -/

/-- A rule with a larger index than all others is selected for no URL that it does not match, and for
none that another one matches. -/
theorem chosen_update [DecidableEq δ] {t t' : Trie} (hb : t.Built) (hb' : t'.Built) {ks : List Key}
    {n : Nat} (hzero : t.ruleAt ks = 0) (hn : ∀ ks', t.ruleAt ks' < n)
    (hrule : t'.ruleAt = Function.update t.ruleAt ks n) {lx : Strto δ} {url : Bytes}
    (h : (lexKeys lx ks url).isSome = true →
      ∃ ks', t.ruleAt ks' ≠ 0 ∧ (lexKeys lx ks' url).isSome = true) :
    (t'.search lx url).chosen.1 = (t.search lx url).chosen.1 := by
  have hother : ∀ {m : Nat}, m ≠ 0 → m ∈ (t'.search lx url).marks →
      m ∈ (t.search lx url).marks ∨ m = n ∧ (lexKeys lx ks url).isSome = true := by
    intro m hm hmem
    obtain ⟨ks', hks', hmatch⟩ := (hb'.mem_marks lx url hm).mp hmem
    rw [hrule] at hks'
    by_cases hsame : ks' = ks
    · subst hsame
      rw [Function.update_self] at hks'
      exact .inr ⟨hks'.symm, hmatch⟩
    · rw [Function.update_of_ne hsame] at hks'
      exact .inl ((hb.mem_marks lx url hm).mpr ⟨ks', hks', hmatch⟩)
  rw [SearchTree.chosen_mark, SearchTree.chosen_mark, leastPos_eq_iff]
  rcases (leastPos_eq_iff (t.search lx url).marks _).mp rfl with ⟨h0, hall⟩ | ⟨hpos, hmem, hle⟩
  · refine .inl ⟨h0, fun m hmem => ?_⟩
    by_contra hm
    rcases hother hm hmem with hold | ⟨-, hmatch⟩
    · exact hm (hall m hold)
    · obtain ⟨ks', hne, hmatch'⟩ := h hmatch
      exact hne (hall _ ((hb.mem_marks lx url hne).mpr ⟨ks', rfl, hmatch'⟩))
  · obtain ⟨ks', hks', hmatch⟩ := (hb.mem_marks lx url (Nat.ne_of_gt hpos)).mp hmem
    have hne : ks' ≠ ks := by
      rintro rfl
      omega
    refine .inr ⟨hpos, (hb'.mem_marks lx url (Nat.ne_of_gt hpos)).mpr ⟨ks', ?_, hmatch⟩, ?_⟩
    · rw [hrule, Function.update_of_ne hne]
      exact hks'
    · intro m hm hm0
      rcases hother (Nat.ne_of_gt hm0) hm with hold | ⟨rfl, -⟩
      · exact hle m hold hm0
      · exact hks' ▸ Nat.le_of_lt (hn ks')

end Trie

/-- The pattern with a slash behind it. -/
def Pattern.slashed (q : Pattern) : Pattern := q ++ [.chr SLASH slash_ne_lbrace]

theorem Pattern.text_slashed (q : Pattern) : q.slashed.text = q.text ++ [SLASH] := by
  rw [slashed, text, List.flatMap_append]
  rfl

theorem Pattern.keys_slashed (q : Pattern) : q.slashed.keys = q.keys ++ [.chr SLASH] := by
  rw [slashed, keys, List.map_append]
  rfl

/-! ## Registrations that leave no trace -/

/-- A router as registrations leave it. -/
structure Registry (A H : Type) where
  router : Router A H
  rules : List (BaseRule A H)
  inv : router.Inv rules

namespace Router

/-- The index that a URL is routed to, and the rule there. -/
def routed (r : Router A H) (lx : Strto δ) (url : Bytes) :
    Except Fault (Nat × Option (BaseRule A H)) :=
  (r.trie.find lx url).map fun found => (found.1, r.ruleAt found.1)

/-- A registration that throws leaves the routes of all URLs as they were. -/
def Atomic (r : Router A H) (lx : Strto δ) (rule : BaseRule A H) : Prop :=
  ∀ r', r.internalAddRuleObject rule = .thrown r' →
    ∀ url found, r.routed lx url = .ok found → r'.routed lx url = .ok found

/-- Of the URLs that the pattern matches, those whose values fit in the parameters are matched by a
registered pattern. -/
def Covers [DecidableEq δ] (r : Router A H) (lx : Strto δ) (p : Pattern) : Prop :=
  ∀ url, p.matches lx url = true → r.trie.Fits lx url →
    ∃ ks, r.trie.ruleAt ks ≠ 0 ∧ (lexKeys lx ks url).isSome = true

/-! ## How a registration throws -/

variable {r r' : Router A H} {rule : BaseRule A H}

/-- The router after a registration, with the trie that it leaves. -/
private def withRule (r : Router A H) (rule : BaseRule A H) (t : Trie) : Router A H :=
  { r with rules := r.rules ++ [some rule], trie := t }

private theorem twin_length {q : Pattern} (hq : q.text ≠ []) : 1 < (q.text ++ [SLASH]).length := by
  have := List.length_pos_iff.mpr hq
  rw [List.length_append, List.length_singleton]
  omega

private theorem ruleAt_twin {t t' : Trie} {q : Pattern} {n : Nat}
    (hrule : t'.ruleAt = Function.update t.ruleAt q.slashed.keys n) :
    t'.ruleAt q.keys = t.ruleAt q.keys := by
  rw [hrule, Function.update_of_ne]
  intro hkeys
  have hlength := congrArg List.length hkeys
  rw [Pattern.keys_slashed, List.length_append, List.length_singleton] at hlength
  omega

/-- With the twin registered and the pattern not, the first insertion stays. -/
theorem thrown_of_twin (hb : r.trie.Built) {q : Pattern} (hq : q.text ≠ [])
    (hrule : rule.rule = q.text ++ [SLASH]) (htwin : r.trie.ruleAt q.keys ≠ 0)
    (hnew : r.trie.ruleAt q.slashed.keys = 0) :
    ∃ t, r.internalAddRuleObject rule = .thrown (r.withRule rule t) ∧ t.Built ∧ r.trie.Grown t ∧
      t.ruleAt = Function.update r.trie.ruleAt q.slashed.keys r.rules.length := by
  have hlast : (r.rules ++ [some rule]).length - 1 = r.rules.length := by
    rw [List.length_append, List.length_singleton, Nat.add_sub_cancel]
  rcases Trie.add_text hb q.slashed r.rules.length with ⟨-, t, hadd, hbt, hat⟩ | ⟨hne, -⟩
  · refine ⟨t, ?_, hbt, Trie.grown_add hb q.keys_slashed htwin hadd, hat⟩
    have hthrown := Trie.add_thrown (ruleAt_twin hat ▸ htwin) RULE_SPECIAL_REDIRECT_SLASH
    rw [internalAddRuleObject, hlast, hrule, ← q.text_slashed, hadd]
    dsimp only
    rw [q.text_slashed, if_pos ⟨twin_length hq, List.getLast?_concat⟩, List.dropLast_concat,
      hthrown]
    rfl
  · exact absurd hnew hne

/-- A registration throws because its pattern is registered, or because its twin is. -/
theorem thrown_cases (hb : r.trie.Built) (h : r.internalAddRuleObject rule = .thrown r') :
    r' = r.withRule rule r.trie ∨
      ∃ q : Pattern, q.text ≠ [] ∧ rule.rule = q.text ++ [SLASH] ∧ r.trie.ruleAt q.keys ≠ 0 ∧
        r.trie.ruleAt q.slashed.keys = 0 := by
  rw [internalAddRuleObject] at h
  cases hadd : r.trie.add rule.rule ((r.rules ++ [some rule]).length - 1) with
  | diverged =>
      rw [hadd] at h
      cases h
  | thrown t =>
      rw [hadd] at h
      refine .inl ?_
      -- the first addition throws at the end of the pattern, and leaves the trie
      obtain ⟨p, hp⟩ := Trie.text_of_add (fun hd => by cases hadd.symm.trans hd)
      rw [← hp] at hadd
      rcases Trie.add_text hb p ((r.rules ++ [some rule]).length - 1) with ⟨-, t', hd, -⟩ | ⟨hne, -⟩
      · cases hd.symm.trans hadd
      · obtain rfl := Trie.Added.thrown.inj ((Trie.add_thrown hne _).symm.trans hadd)
        exact (Registered.thrown.inj h).symm
  | done t =>
      rw [hadd] at h
      dsimp only at h
      refine .inr ?_
      -- the second one is made for the text without the slash
      split at h
      · next hslash =>
          cases hadd' : t.add rule.rule.dropLast RULE_SPECIAL_REDIRECT_SLASH with
          | diverged =>
              rw [hadd'] at h
              cases h
          | done t' =>
              rw [hadd'] at h
              cases h
          | thrown t' =>
              obtain ⟨q, hq⟩ := Trie.text_of_add (fun hd => by cases hadd'.symm.trans hd)
              have hrule : rule.rule = q.text ++ [SLASH] := by
                rw [hq]
                exact (List.dropLast_append_getLast? SLASH hslash.2).symm
              rw [hrule, ← q.text_slashed] at hadd
              obtain ⟨hbt, hnew, hat⟩ := Trie.add_done hb hadd
              refine ⟨q, ?_, hrule, ?_, hnew⟩
              · intro hnil
                rw [hrule, hnil] at hslash
                exact absurd hslash.1 (Nat.lt_irrefl 1)
              · rw [← ruleAt_twin hat]
                rcases Trie.add_text hbt q RULE_SPECIAL_REDIRECT_SLASH with ⟨-, t'', hd, -⟩ | ⟨hne, -⟩
                · rw [hq] at hd
                  cases hd.symm.trans hadd'
                · exact hne
      · cases h

/-! ## When it makes no difference -/

private theorem routed_of_fits [DecidableEq δ] (hb : r.trie.Built) {lx : Strto δ} {url : Bytes}
    (hfits : r.trie.Fits lx url) : r.routed lx url =
      .ok ((r.trie.search lx url).chosen.1, r.ruleAt (r.trie.search lx url).chosen.1) := by
  obtain ⟨params, hfind, -⟩ := Trie.find_ok hb.wf hfits
  rw [routed, hfind]
  rfl

/-- The rules that were there before are where they were. -/
private theorem ruleAt_withRule {t : Trie} {i : Nat} (hi : i < r.rules.length) :
    (r.withRule rule t).ruleAt i = r.ruleAt i := by
  rw [ruleAt, ruleAt, withRule, List.getElem?_append_left hi]

private theorem chosen_range [DecidableEq δ] {rules : List (BaseRule A H)} (hr : r.Inv rules)
    (lx : Strto δ) (url : Bytes) : (r.trie.search lx url).chosen.1 < r.rules.length := by
  have hpos : 0 < r.rules.length := Nat.lt_of_le_of_lt (Nat.zero_le _) (hr.range [])
  rw [SearchTree.chosen_mark]
  rcases (leastPos_eq_iff (r.trie.search lx url).marks _).mp rfl with ⟨h0, -⟩ | ⟨hlt, hmem, -⟩
  · rw [h0]
    exact hpos
  · obtain ⟨ks, hks, -⟩ := (hr.built.mem_marks lx url (Nat.ne_of_gt hlt)).mp hmem
    rw [← hks]
    exact hr.range ks

/-- The router with the rule `/a`. -/
def onlyA : Registry Unit Unit where
  router := { rules := [none, none, some { rule := str "/a", attrs := (), handler := some () }],
              trie := { nodes := Trie.single [.chr SLASH, .chr 97] 2 }, apiBase := [] }
  rules := [{ rule := str "/a", attrs := (), handler := some () }]
  inv := @register_inv _ _ (Router.new []) _ [] (inv_new []) _ (.inl rfl)

end Router

end Suil.Routing
