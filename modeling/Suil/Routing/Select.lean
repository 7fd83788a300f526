import Suil.Routing.Find
import Suil.Routing.Rules

set_option autoImplicit false

/-! # Which rule `find` selects, and with which parameters

`Pattern.lex` matches one pattern against a whole URL, every placeholder taking the maximal
lexeme of its kind. `find` over the trie of a list of patterns agrees with matching the
patterns one by one as long as everything it has to hold fits in the parameters
(`Trie.find_leastMatch_iff`), and returns the parameters of the selected pattern as long as
the walk completed just before shares no placeholder with it (`Trie.find_params_iff`). -/

namespace Suil.Routing

open Backtrack

variable {δ : Type}

/-! ## Matching one pattern -/

/-- Match the edges of a pattern against the whole of `rest`. -/
def lexKeys (lx : Strto δ) : List Key → Bytes → Option (List (Trie.Step δ))
  | [], rest => if rest = [] then some [] else none
  | .chr c :: ks, rest =>
      match rest with
      | [] => none
      | d :: rest => if c = d then (lexKeys lx ks rest).map (.lit [c] :: ·) else none
  | .param k :: ks, rest =>
      match lexeme lx k rest with
      | none => none
      | some (v, rest) => (lexKeys lx ks rest).map (.param k v :: ·)

/-- The steps of a pattern over a URL, if the pattern matches the whole of it. -/
def Pattern.lex (lx : Strto δ) (p : Pattern) (url : Bytes) : Option (List (Trie.Step δ)) :=
  lexKeys lx p.keys url

def Pattern.matches (lx : Strto δ) (p : Pattern) (url : Bytes) : Bool := (p.lex lx url).isSome

/-- The least index among the registered patterns that match a URL, `0` if none does. -/
def leastMatch (lx : Strto δ) (routes : List (Pattern × Nat)) (url : Bytes) : Nat :=
  leastPos ((routes.filter (fun r => r.1.matches lx url)).map Prod.snd)

namespace Trie

/-! ## Walks over a trie that `add` built -/

theorem Built.lookup_iff {t : Trie} (h : t.Built) (i : Nat) (f : Bytes) (j : Nat) :
    (f, j) ∈ (t.node i).children ↔ (t.node i).children.lookup f = some j := by
  have key : ∀ (l : List (Bytes × Nat)), (l.map Prod.fst).Nodup →
      ((f, j) ∈ l ↔ l.lookup f = some j) := by
    intro l
    induction l with
    | nil => simp
    | cons e l ih =>
        intro hnd
        rw [List.map_cons, List.nodup_cons] at hnd
        by_cases hf : f = e.1
        · subst hf
          have hnot : (e.1, j) ∉ l := fun hm => hnd.1 (List.mem_map.mpr ⟨_, hm, rfl⟩)
          simp only [List.mem_cons, hnot, or_false, List.lookup, beq_self_eq_true]
          constructor
          · rintro h; rw [← h]
          · intro h; rw [← Option.some.inj h]
        · have hb : (f == e.1) = false := by simpa using hf
          rw [List.mem_cons, ih hnd.2]
          simp only [List.lookup, hb]
          constructor
          · rintro (rfl | h)
            · exact absurd rfl hf
            · exact h
          · exact Or.inr
  exact key _ (h.nodup i)

theorem Built.wf {t : Trie} (h : t.Built) : t.Wf := by
  refine ⟨?_, ?_⟩
  · intro i e he hnil
    obtain ⟨c, hc⟩ := h.single he
    rw [hnil] at hc
    cases hc
  · intro i
    refine List.Pairwise.imp_of_mem ?_ (h.nodup i)
    intro f g hf hg hne
    obtain ⟨e, he, rfl⟩ := List.mem_map.mp hf
    obtain ⟨e', he', rfl⟩ := List.mem_map.mp hg
    obtain ⟨c, hc⟩ := h.single he
    obtain ⟨c', hc'⟩ := h.single he'
    rw [hc, hc'] at hne ⊢
    have hcc : c ≠ c' := fun h => hne (by rw [h])
    simp [List.cons_prefix_cons, hcc, Ne.symm hcc]

/-- The edges open at a node, by the key they have in the trie. -/
theorem Built.mem_edges {t : Trie} (h : t.Built) (lx : Strto δ) (rest : Bytes) (i : Nat)
    (e : Step δ × Bytes × Nat) :
    e ∈ t.edges lx rest i ↔
      (∃ k v rest' j, lexeme lx k rest = some (v, rest') ∧
          (t.node i).next (.param k) = some j ∧ e = (.param k v, rest', j)) ∨
        ∃ c rest' j, rest = c :: rest' ∧ (t.node i).next (.chr c) = some j ∧
          e = (.lit [c], rest', j) := by
  rw [edges, List.mem_append, List.mem_filterMap, List.mem_filterMap]
  refine or_congr ?_ ?_
  · constructor
    · rintro ⟨k, -, hk⟩
      split_ifs at hk with h0
      obtain ⟨⟨v, rest'⟩, hr, rfl⟩ := Option.map_eq_some_iff.mp hk
      exact ⟨k, v, rest', _, hr, if_neg h0, rfl⟩
    · rintro ⟨k, v, rest', j, hr, hn, rfl⟩
      refine ⟨k, by cases k <;> decide, ?_⟩
      simp only [Node.next] at hn
      split_ifs at hn with h0
      cases hn
      rw [if_neg h0, hr]
      rfl
  · constructor
    · rintro ⟨⟨f, j⟩, hf, hk⟩
      split_ifs at hk with hpre
      cases hk
      obtain ⟨c, hc⟩ := h.single hf
      simp only at hc
      subst hc
      obtain ⟨rest', rfl⟩ := List.isPrefixOf_iff_prefix.mp hpre
      exact ⟨c, rest', j, rfl, (h.lookup_iff i [c] j).mp hf, rfl⟩
    · rintro ⟨c, rest', j, rfl, hn, rfl⟩
      refine ⟨([c], j), (h.lookup_iff i [c] j).mpr hn, ?_⟩
      simp

/-- **The walks over a trie that `add` built are the patterns that match.** -/
theorem Built.walk_iff {t : Trie} (h : t.Built) (lx : Strto δ) (i : Nat) (rest : Bytes)
    (p : List (Step δ)) (j : Nat) :
    Walk t lx i rest p j ↔ ∃ ks, t.goto i ks = some j ∧ lexKeys lx ks rest = some p := by
  constructor
  · intro hw
    -- on the walk: each edge is one key
    induction hw with
    | stop i => exact ⟨[], rfl, rfl⟩
    | @step i j rest e p hrest he hp ih =>
        obtain ⟨ks, hg, hl⟩ := ih
        rcases (h.mem_edges lx rest i e).mp he with ⟨k, v, rest', a, hlex, hn, rfl⟩ |
          ⟨c, rest', a, rfl, hn, rfl⟩
        · refine ⟨.param k :: ks, by rw [goto, hn]; exact hg, ?_⟩
          simp only [lexKeys, hlex]
          rw [hl]; rfl
        · refine ⟨.chr c :: ks, by rw [goto, hn]; exact hg, ?_⟩
          simp only [lexKeys, if_pos]
          rw [hl]; rfl
  · rintro ⟨ks, hg, hl⟩
    -- on the keys: each has one edge to follow
    induction ks generalizing i rest p with
    | nil =>
        simp only [lexKeys] at hl
        split_ifs at hl with hrest
        cases hl
        cases hg
        subst hrest
        exact .stop _
    | cons k ks ih =>
        rw [goto] at hg
        cases hn : (t.node i).next k with
        | none => rw [hn] at hg; cases hg
        | some a =>
            rw [hn] at hg
            cases k with
            | chr c =>
                cases rest with
                | nil => cases hl
                | cons d rest =>
                    simp only [lexKeys] at hl
                    split_ifs at hl with hc
                    subst hc
                    obtain ⟨q, hq, rfl⟩ := Option.map_eq_some_iff.mp hl
                    have he : (.lit [c], rest, a) ∈ t.edges lx (c :: rest) i :=
                      (h.mem_edges lx _ i _).mpr (Or.inr ⟨c, rest, a, rfl, hn, rfl⟩)
                    exact .step (by simp) he (ih a rest q hg hq)
            | param k =>
                simp only [lexKeys] at hl
                cases hlex : lexeme lx k rest with
                | none => rw [hlex] at hl; cases hl
                | some r =>
                    rw [hlex] at hl
                    obtain ⟨q, hq, rfl⟩ := Option.map_eq_some_iff.mp hl
                    have he : (.param k r.1, r.2, a) ∈ t.edges lx rest i :=
                      (h.mem_edges lx _ i _).mpr (Or.inl ⟨k, r.1, r.2, a, hlex, hn, rfl⟩)
                    -- a parameter never takes nothing
                    have hrest : rest ≠ [] := by
                      have := lexeme_lt hlex
                      rintro rfl
                      simp at this
                    exact .step hrest he (ih a r.2 q hg hq)

/-! ## Selecting the rule -/

/-- A completed walk with a rule is the match of a pattern registered with that rule. -/
theorem lex_of_visit {lx : Strto δ} {routes : List (Pattern × Nat)} {t : Trie}
    (hadd : addAll {} (texts routes) = some t) {url : Bytes}
    {p : List (Step δ)} {m : Nat} (hm : m ≠ 0)
    (hv : Visit.stop p m ∈ (t.search lx url).visits) :
    ∃ q : Pattern, (q, m) ∈ routes ∧ q.lex lx url = some p := by
  have hb := built_addAll built_empty hadd
  obtain ⟨j, hwalk, hj⟩ := (mem_visits_searchFrom hb.wf lx _ url (Nat.lt_succ_self _) 0 p m).mp hv
  obtain ⟨ks, hg, hl⟩ := (hb.walk_iff lx 0 url p j).mp hwalk
  have hrule : t.ruleAt ks = m := by rw [ruleAt, hg]; exact hj
  obtain ⟨q, hq, rfl⟩ := (ruleAt_addAll hadd hm).mp hrule
  exact ⟨q, hq, hl⟩

/-- The indexes the search finds are those of the patterns that match. -/
theorem Built.mem_marks {t : Trie} (h : t.Built) (lx : Strto δ) (url : Bytes) {m : Nat}
    (hm : m ≠ 0) :
    m ∈ (t.search lx url).marks ↔ ∃ ks, t.ruleAt ks = m ∧ (lexKeys lx ks url).isSome = true := by
  rw [mem_marks_search h.wf]
  constructor
  · rintro ⟨p, j, hwalk, hj⟩
    obtain ⟨ks, hg, hl⟩ := (h.walk_iff lx 0 url p j).mp hwalk
    exact ⟨ks, by rw [ruleAt, hg]; exact hj, by rw [hl]; rfl⟩
  · rintro ⟨ks, hrule, hmatch⟩
    obtain ⟨p, hl⟩ := Option.isSome_iff_exists.mp hmatch
    rw [ruleAt] at hrule
    cases hg : t.goto 0 ks with
    | none => rw [hg] at hrule; exact absurd hrule.symm hm
    | some j =>
        rw [hg] at hrule
        exact ⟨p, j, (h.walk_iff lx 0 url p j).mpr ⟨ks, hg, hl⟩, hrule⟩

theorem mem_marks_iff {lx : Strto δ} {routes : List (Pattern × Nat)} {t : Trie}
    (hadd : addAll {} (texts routes) = some t) (url : Bytes) {m : Nat} (hm : m ≠ 0) :
    m ∈ (t.search lx url).marks ↔ ∃ q : Pattern, (q, m) ∈ routes ∧ q.matches lx url = true := by
  rw [(built_addAll built_empty hadd).mem_marks lx url hm]
  constructor
  · rintro ⟨ks, hrule, hmatch⟩
    obtain ⟨q, hq, rfl⟩ := (ruleAt_addAll hadd hm).mp hrule
    exact ⟨q, hq, hmatch⟩
  · rintro ⟨q, hq, hmatch⟩
    exact ⟨q.keys, (ruleAt_addAll hadd hm).mpr ⟨q, hq, rfl⟩, hmatch⟩

/-- The mark of the walk that the search chooses is the least index of a pattern that
matches. -/
theorem chosen_mark_eq_leastMatch [DecidableEq δ] {lx : Strto δ}
    {routes : List (Pattern × Nat)} {t : Trie}
    (hadd : addAll {} (texts routes) = some t) (url : Bytes) :
    (t.search lx url).chosen.1 = leastMatch lx routes url := by
  rw [SearchTree.chosen_mark]
  refine leastPos_congr (fun m hm => ?_)
  rw [mem_marks_iff hadd url (Nat.ne_of_gt hm)]
  simp only [List.mem_map, List.mem_filter]
  constructor
  · rintro ⟨q, hq, hmatch⟩
    exact ⟨(q, m), ⟨hq, hmatch⟩, rfl⟩
  · rintro ⟨⟨q, m'⟩, ⟨hq, hmatch⟩, rfl⟩
    exact ⟨q, hq, hmatch⟩

/-- **`find` selects the least index of a pattern that matches exactly when the values it
holds at any one time number at most 128 of each kind.** -/
theorem find_leastMatch_iff [DecidableEq δ] (lx : Strto δ) (routes : List (Pattern × Nat))
    (t : Trie) (hadd : addAll {} (texts routes) = some t)
    (url : Bytes) :
    (∃ params, t.find lx url = .ok (leastMatch lx routes url, params)) ↔ t.Fits lx url := by
  have hb := built_addAll built_empty hadd
  rw [← chosen_mark_eq_leastMatch hadd url]
  constructor
  · rintro ⟨params, hfind⟩
    by_contra hfit
    obtain ⟨e, he⟩ := find_error hb.wf hfit
    rw [he] at hfind
    cases hfind
  · intro hfit
    obtain ⟨params, hfind, -⟩ := find_ok hb.wf hfit
    exact ⟨params, hfind⟩

theorem find_leastMatch_int : ∃ t,
    addAll {} (texts [([.placeholder .int (str "{int}") (by decide)], 2)]) = some t ∧
      ((∃ params, t.find decimalReaders (str "5") = .ok (2, params)) ↔
        t.Fits decimalReaders (str "5")) :=
  ⟨_, rfl, find_leastMatch_iff decimalReaders
    [([.placeholder .int (str "{int}") (by decide)], 2)] _ rfl (str "5")⟩

/-- A pattern of 129 placeholders. -/
def manyInts : Pattern := List.replicate 129 (.placeholder .int (str "{int}") (by decide))

set_option maxRecDepth 8000 in
private theorem find_single_manyInts :
    ({ nodes := single manyInts.keys 2 } : Trie).find decimalReaders
      (List.replicate 129 (str "+1")).flatten = .error .nullWrite := by
  decide

set_option maxRecDepth 8000 in
/-- **A pattern with 129 placeholders of one kind is not found**: the push of the last value
writes through a null pointer. -/
theorem find_manyInts :
    leastMatch decimalReaders [(manyInts, 2)] (List.replicate 129 (str "+1")).flatten = 2 ∧
      (addAll {} (texts [(manyInts, 2)])).map
        (fun t => t.find decimalReaders (List.replicate 129 (str "+1")).flatten)
          = some (.error .nullWrite) := by
  have hadd : addAll {} (texts [(manyInts, 2)]) = some { nodes := single manyInts.keys 2 } :=
    addAll_single manyInts 2
  refine ⟨by decide, ?_⟩
  rw [hadd, Option.map_some, find_single_manyInts]

/-! ## The parameters of the selected rule -/

private theorem values_append (p q : List (Step δ)) : values (p ++ q) = values p ++ values q :=
  List.filterMap_append

/-- **`find` returns the parameters of the selected pattern exactly when everything fits and
the walk completed just before the selected one shares no placeholder with it.** The first
part says that the selected walk is the match of a pattern registered with the least index. -/
theorem find_params_iff [DecidableEq δ] (lx : Strto δ) (routes : List (Pattern × Nat))
    (t : Trie) (hadd : addAll {} (texts routes) = some t)
    (url : Bytes) (hsel : leastMatch lx routes url ≠ 0) :
    (∃ q : Pattern, (q, leastMatch lx routes url) ∈ routes ∧
        q.lex lx url = some (t.search lx url).chosen.2.1) ∧
      ((∃ params, t.find lx url = .ok (leastMatch lx routes url, params) ∧
          params.Carries (values (t.search lx url).chosen.2.1)) ↔
        t.Fits lx url ∧ ∀ p, (t.search lx url).Before p (t.search lx url).chosen.2.1 →
          values (shared p (t.search lx url).chosen.2.1) = []) := by
  have hb := built_addAll built_empty hadd
  have hwf := wf_search hb.wf lx url
  have hmark : (t.search lx url).chosen.1 = leastMatch lx routes url :=
    chosen_mark_eq_leastMatch hadd url
  have hchosen : (t.search lx url).chosen.1 ≠ 0 := by rw [hmark]; exact hsel
  -- the selected walk is one that the search visits
  have hvisit := (t.search lx url).chosen_visit hchosen
  rw [← hmark]
  generalize hw : (t.search lx url).chosen.2.1 = w at hvisit ⊢
  have hheld := SearchTree.held_chosen hwf hchosen
  rw [hw] at hheld
  refine ⟨lex_of_visit hadd hchosen hvisit, ?_, ?_⟩
  · rintro ⟨params, hfind, hcarries⟩
    have hfit : t.Fits lx url := by
      by_contra hfit
      obtain ⟨e, he⟩ := find_error hb.wf hfit
      rw [he] at hfind
      cases hfind
    refine ⟨hfit, fun p hp => ?_⟩
    obtain ⟨params', hfind', hcarries'⟩ := find_ok hb.wf hfit
    rw [hfind] at hfind'
    cases hfind'
    rcases hheld with ⟨q, hq, hbeyond⟩ | ⟨hnone, -⟩
    -- what is beyond the selected values is what the walk before it shares with it
    · rw [← hq.unique hwf hp]
      have hx := hcarries' hchosen
      rw [hbeyond] at hx
      rw [← shared_append_beyond q w, values_append] at hcarries
      exact hx.eq_nil hcarries
    · exact absurd hp (hnone p)
  · rintro ⟨hfit, hshared⟩
    obtain ⟨params, hfind, hcarries⟩ := find_ok hb.wf hfit
    refine ⟨params, hfind, ?_⟩
    rcases hheld with ⟨q, hq, hbeyond⟩ | ⟨-, hall⟩
    · have hx := hcarries hchosen
      rw [hbeyond] at hx
      rw [← shared_append_beyond q w, values_append, hshared q hq]
      exact hx
    · rw [← hall]
      exact hcarries hchosen

/-- The routes `{int}/a` and `{int}/{str}`. -/
def overlapping : List (Pattern × Nat) :=
  [([.placeholder .int (str "{int}") (by decide), .chr SLASH (by decide), .chr 97 (by decide)], 2),
    ([.placeholder .int (str "{int}") (by decide), .chr SLASH (by decide),
      .placeholder .string (str "{str}") (by decide)], 3)]

theorem find_params_overlapping : ∃ t, addAll {} (texts overlapping) = some t ∧
    (∃ q : Pattern, (q, leastMatch decimalReaders overlapping (str "5/b")) ∈ overlapping ∧
        q.lex decimalReaders (str "5/b") = some (t.search decimalReaders (str "5/b")).chosen.2.1) ∧
      ((∃ params, t.find decimalReaders (str "5/b")
            = .ok (leastMatch decimalReaders overlapping (str "5/b"), params) ∧
          params.Carries (values (t.search decimalReaders (str "5/b")).chosen.2.1)) ↔
        t.Fits decimalReaders (str "5/b") ∧
          ∀ p, (t.search decimalReaders (str "5/b")).Before p
              (t.search decimalReaders (str "5/b")).chosen.2.1 →
            values (shared p (t.search decimalReaders (str "5/b")).chosen.2.1) = []) := by
  have hsome : (addAll {} (texts overlapping)).isSome = true := by decide
  obtain ⟨t, ht⟩ := Option.isSome_iff_exists.mp hsome
  exact ⟨t, ht, find_params_iff decimalReaders overlapping t ht (str "5/b") (by decide)⟩

/-- **A selected rule can lose its parameters**: the leaf of `{int}/{str}` is visited first and
takes the value of the placeholder that `{int}/a` shares with it. -/
theorem find_params_lost :
    leastMatch decimalReaders overlapping (str "5/a") = 2 ∧
      overlapping.head?.bind (fun r => r.1.lex decimalReaders (str "5/a"))
        = some [.param .int (.int 5), .lit (str "/"), .lit (str "a")] ∧
      (addAll {} (texts overlapping)).map (fun t => t.find decimalReaders (str "5/a"))
        = some (.ok (2, {})) ∧
      ¬ ({} : RoutingParams Int).Carries [.int 5] := by
  refine ⟨by decide, by decide, by decide, ?_⟩
  exact fun h => absurd h.1 (by decide)

end Trie

end Suil.Routing
