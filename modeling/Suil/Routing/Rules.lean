import Suil.Routing.Trie

set_option autoImplicit false

/-! # The rules of a trie

`Trie.ruleAt` reads a trie as a map from patterns to rule indexes. `Trie.Built` is the
invariant of the tries that `add` builds: the edges form a tree that grows away from the head
and literal edges carry one character each.

* `add_done`: a call of `add` that returns updates the map at its pattern.
* `ruleAt_addAll`: after any number of calls the map holds what was registered. -/

namespace Suil.Routing

namespace Trie

/-- The node that edges lead to from the node `i`. -/
def goto (t : Trie) : Nat → List Key → Option Nat
  | i, [] => some i
  | i, k :: ks =>
      match (t.node i).next k with
      | some j => t.goto j ks
      | none => none

/-- The rule index left at the end of a pattern, `0` if the pattern leads nowhere. -/
def ruleAt (t : Trie) (ks : List Key) : Nat :=
  match t.goto 0 ks with
  | some i => (t.node i).ruleIndex
  | none => 0

/-- **The invariant of the tries that `add` builds.** -/
structure Built (t : Trie) : Prop where
  pos : 0 < t.nodes.length
  up : ∀ {i k j}, (t.node i).next k = some j → i < j ∧ j < t.nodes.length
  parent : ∀ {i k i' k' j}, (t.node i).next k = some j → (t.node i').next k' = some j →
    i = i' ∧ k = k'
  single : ∀ {i e}, e ∈ (t.node i).children → ∃ c, e.1 = [c]
  nodup : ∀ i, ((t.node i).children.map Prod.fst).Nodup

theorem built_empty : Built {} := by
  have hnode : ∀ i, ({} : Trie).node i = {} := by
    intro i
    cases i <;> rfl
  refine ⟨by decide, ?_, ?_, ?_, ?_⟩
  · intro i k j h; rw [hnode, next_default] at h; cases h
  · intro i k i' k' j h; rw [hnode, next_default] at h; cases h
  · intro i e h; rw [hnode] at h; cases h
  · intro i; rw [hnode]; exact List.nodup_nil

theorem ruleAt_empty (ks : List Key) : ({} : Trie).ruleAt ks = 0 := by
  cases ks with
  | nil => rfl
  | cons k ks =>
      have hnode : ({} : Trie).node 0 = {} := rfl
      rw [ruleAt, goto, hnode, next_default]

/-! ## Where patterns lead -/

theorem goto_append (t : Trie) (i : Nat) (ks ks' : List Key) :
    t.goto i (ks ++ ks') = (t.goto i ks).bind (fun j => t.goto j ks') := by
  induction ks generalizing i with
  | nil => rfl
  | cons k ks ih =>
      simp only [List.cons_append, goto]
      cases (t.node i).next k with
      | none => rfl
      | some j => exact ih j

theorem goto_singleton (t : Trie) (i : Nat) (k : Key) : t.goto i [k] = (t.node i).next k := by
  simp only [goto]
  cases (t.node i).next k <;> rfl

theorem Built.goto_le {t : Trie} (h : t.Built) {i j : Nat} {ks : List Key}
    (hg : t.goto i ks = some j) : i + ks.length ≤ j := by
  induction ks generalizing i with
  | nil => cases hg; exact Nat.le_refl _
  | cons k ks ih =>
      rw [goto] at hg
      cases hn : (t.node i).next k with
      | none => rw [hn] at hg; cases hg
      | some a =>
          rw [hn] at hg
          have := ih hg
          have := (h.up hn).1
          simp only [List.length_cons]
          omega

/-- A node is reached in one way only. -/
theorem Built.goto_inj {t : Trie} (h : t.Built) {i j : Nat} {ks ks' : List Key}
    (hg : t.goto i ks = some j) (hg' : t.goto i ks' = some j) : ks = ks' := by
  induction ks using List.reverseRecOn generalizing j ks' with
  | nil =>
      cases hg
      have := h.goto_le hg'
      exact (List.length_eq_zero_iff.mp (by omega)).symm
  | append_singleton ks k ih =>
      rcases List.eq_nil_or_concat' ks' with rfl | ⟨ks', k', rfl⟩
      · cases hg'
        have := h.goto_le hg
        rw [List.length_append, List.length_singleton] at this
        omega
      · rw [goto_append] at hg hg'
        cases ha : t.goto i ks with
        | none => rw [ha] at hg; cases hg
        | some a =>
            cases ha' : t.goto i ks' with
            | none => rw [ha'] at hg'; cases hg'
            | some a' =>
                rw [ha, Option.bind_some, goto_singleton] at hg
                rw [ha', Option.bind_some, goto_singleton] at hg'
                obtain ⟨rfl, rfl⟩ := h.parent hg hg'
                rw [ih ha ha']

/-! ## Growing a trie -/

/-- The trie `t'` is `t` with more nodes and edges to them, and no more rules. -/
structure Extends (t t' : Trie) : Prop where
  size : t.nodes.length ≤ t'.nodes.length
  rule : ∀ i, (t'.node i).ruleIndex = (t.node i).ruleIndex
  keep : ∀ {i k j}, (t.node i).next k = some j → (t'.node i).next k = some j
  fresh : ∀ {i k j}, (t'.node i).next k = some j →
    (t.node i).next k = some j ∨ t.nodes.length ≤ j

theorem Extends.refl (t : Trie) : t.Extends t :=
  ⟨Nat.le_refl _, fun _ => rfl, fun h => h, fun h => Or.inl h⟩

theorem Extends.trans {t t' t'' : Trie} (h : t.Extends t') (h' : t'.Extends t'') :
    t.Extends t'' := by
  refine ⟨Nat.le_trans h.size h'.size, fun i => (h'.rule i).trans (h.rule i),
    fun hn => h'.keep (h.keep hn), fun hn => ?_⟩
  rcases h'.fresh hn with hn' | hj
  · exact h.fresh hn'
  · exact Or.inr (Nat.le_trans h.size hj)

theorem Extends.goto {t t' : Trie} (h : t.Extends t') {i j : Nat} {ks : List Key}
    (hg : t.goto i ks = some j) : t'.goto i ks = some j := by
  induction ks generalizing i with
  | nil => exact hg
  | cons k ks ih =>
      rw [Trie.goto] at hg ⊢
      cases hn : (t.node i).next k with
      | none => rw [hn] at hg; cases hg
      | some a =>
          rw [hn] at hg
          rw [h.keep hn]
          exact ih hg

theorem Extends.goto_fresh {t t' : Trie} (h : t.Extends t') (hb : t'.Built) {i j : Nat}
    {ks : List Key} (hg : t'.goto i ks = some j) :
    t.goto i ks = some j ∨ t.nodes.length ≤ j := by
  induction ks generalizing i with
  | nil => exact Or.inl hg
  | cons k ks ih =>
      rw [Trie.goto] at hg ⊢
      cases hn : (t'.node i).next k with
      | none => rw [hn] at hg; cases hg
      | some a =>
          rw [hn] at hg
          rcases h.fresh hn with hn' | ha
          · rw [hn']
            exact ih hg
          · have := hb.goto_le hg
            exact Or.inr (by omega)

/-- Growing a trie changes no rule. -/
theorem Extends.ruleAt {t t' : Trie} (h : t.Extends t') (hb : t'.Built) :
    t'.ruleAt = t.ruleAt := by
  funext ks
  unfold Trie.ruleAt
  cases hg : t.goto 0 ks with
  | some j =>
      rw [h.goto hg]
      exact h.rule j
  | none =>
      cases hg' : t'.goto 0 ks with
      | none => rfl
      | some j =>
          rcases h.goto_fresh hb hg' with hj | hj
          · rw [hg] at hj; cases hj
          · show (t'.node j).ruleIndex = 0
            rw [h.rule, node_of_length_le hj]

private theorem next_follow_new {t : Trie} (hb : t.Built) {idx : Nat}
    (hidx : idx < t.nodes.length) {k : Key} (hn : (t.node idx).next k = none) (i : Nat)
    (k' : Key) :
    ((t.newNode.set idx ((t.node idx).link t.nodes.length k)).node i).next k' =
      if i = idx ∧ k' = k then some t.nodes.length else (t.node i).next k' := by
  by_cases hi : i = idx
  · subst hi
    rw [node_set_self (by simp; omega), Node.next_link hn (Nat.ne_of_gt hb.pos)]
    simp
  · rw [node_set_ne _ hi, node_newNode]
    simp [hi]

/-- What one round of the loop of `add` does. -/
theorem follow_spec {t : Trie} (hb : t.Built) {idx : Nat} (hidx : idx < t.nodes.length)
    (k : Key) :
    (t.follow idx k).1.Built ∧ t.Extends (t.follow idx k).1 ∧
      (t.follow idx k).2 < (t.follow idx k).1.nodes.length ∧
      ((t.follow idx k).1.node idx).next k = some (t.follow idx k).2 := by
  unfold follow
  -- a node of the key is there, or one is made behind the others
  cases hn : (t.node idx).next k with
  | some j => exact ⟨hb, Extends.refl t, (hb.up hn).2, hn⟩
  | none =>
      have hnext := fun i k' => next_follow_new hb hidx hn i k'
      generalize ht' : t.newNode.set idx ((t.node idx).link t.nodes.length k) = t' at hnext
      show t'.Built ∧ t.Extends t' ∧ t.nodes.length < t'.nodes.length ∧
        (t'.node idx).next k = some t.nodes.length
      have hlen : t'.nodes.length = t.nodes.length + 1 := by simp [← ht']
      -- only the node itself has one child more, and only for a byte
      have hchildren : ∀ i, (t'.node i).children = (t.node i).children ∨
          i = idx ∧ ∃ c, k = .chr c ∧
            (t'.node i).children = (t.node i).children ++ [([c], t.nodes.length)] := by
        intro i
        by_cases hi : i = idx
        · subst hi
          have hself : t'.node i = (t.node i).link t.nodes.length k := by
            rw [← ht', node_set_self (by simp; omega)]
          rw [hself]
          cases k with
          | chr c => exact Or.inr ⟨rfl, c, rfl, rfl⟩
          | param k => exact Or.inl rfl
        · rw [← ht', node_set_ne _ hi, node_newNode]
          exact Or.inl rfl
      -- first that the new trie is built, then that it extends the old one
      refine ⟨⟨by omega, ?_, ?_, ?_, ?_⟩, ⟨by omega, ?_, ?_, ?_⟩, by omega, ?_⟩
      · intro i k' j hj
        rw [hnext] at hj
        split_ifs at hj with hik
        · cases hj; omega
        · have := hb.up hj; omega
      · intro i k₁ i' k₂ j hj hj'
        rw [hnext] at hj hj'
        split_ifs at hj hj' with h₁ h₂ h₂
        · exact ⟨h₁.1.trans h₂.1.symm, h₁.2.trans h₂.2.symm⟩
        · cases hj; have := hb.up hj'; omega
        · cases hj'; have := hb.up hj; omega
        · exact hb.parent hj hj'
      · intro i e he
        rcases hchildren i with h | ⟨rfl, c, -, h⟩
        · rw [h] at he; exact hb.single he
        · rw [h, List.mem_append, List.mem_singleton] at he
          rcases he with he | rfl
          · exact hb.single he
          · exact ⟨c, rfl⟩
      · intro i
        rcases hchildren i with h | ⟨rfl, c, rfl, h⟩
        · rw [h]; exact hb.nodup i
        · rw [h, List.map_append]
          refine List.nodup_append.mpr ⟨hb.nodup i, by simp, ?_⟩
          intro f hf g hg
          obtain ⟨⟨f', j⟩, hmem, rfl⟩ := List.mem_map.mp hf
          have hg' : g = [c] := by simpa using hg
          rintro rfl
          have hnone : (t.node i).children.lookup [c] = none := hn
          rw [List.lookup_eq_none_iff] at hnone
          have hne : ¬ [c] = f' := by simpa using hnone _ hmem
          exact hne hg'.symm
      · intro i
        by_cases hi : i = idx
        · subst hi; rw [← ht', node_set_self (by simp; omega), Node.ruleIndex_link]
        · rw [← ht', node_set_ne _ hi, node_newNode]
      · intro i k' j hj
        rw [hnext, if_neg]
        · exact hj
        · rintro ⟨rfl, rfl⟩; rw [hn] at hj; cases hj
      · intro i k' j hj
        rw [hnext] at hj
        split_ifs at hj with hik
        · cases hj; exact Or.inr (Nat.le_refl _)
        · exact Or.inl hj
      · rw [hnext, if_pos ⟨rfl, rfl⟩]

theorem followAll_spec {t : Trie} (hb : t.Built) {idx : Nat} (hidx : idx < t.nodes.length)
    (ks : List Key) :
    (t.followAll idx ks).1.Built ∧ t.Extends (t.followAll idx ks).1 ∧
      (t.followAll idx ks).2 < (t.followAll idx ks).1.nodes.length ∧
      (t.followAll idx ks).1.goto idx ks = some (t.followAll idx ks).2 := by
  induction ks generalizing t idx with
  | nil => exact ⟨hb, Extends.refl t, hidx, rfl⟩
  | cons k ks ih =>
      obtain ⟨hb₁, he₁, hlt₁, hn₁⟩ := follow_spec hb hidx k
      obtain ⟨hb₂, he₂, hlt₂, hg₂⟩ := ih hb₁ hlt₁
      have hcons : t.followAll idx (k :: ks)
          = (t.follow idx k).1.followAll (t.follow idx k).2 ks := rfl
      rw [hcons]
      refine ⟨hb₂, he₁.trans he₂, hlt₂, ?_⟩
      rw [goto, he₂.keep hn₁]
      exact hg₂

/-! ## Leaving the rule index -/

/-- The trie with the rule index of one node overwritten. -/
def setRule (t : Trie) (i r : Nat) : Trie := t.set i { t.node i with ruleIndex := r }

private theorem node_setRule {t : Trie} {i : Nat} (hi : i < t.nodes.length) (r j : Nat) :
    (t.setRule i r).node j =
      if j = i then { t.node i with ruleIndex := r } else t.node j := by
  by_cases hj : j = i
  · subst hj; rw [if_pos rfl, setRule, node_set_self hi]
  · rw [if_neg hj, setRule, node_set_ne _ hj]

private theorem next_setRule {t : Trie} {i : Nat} (hi : i < t.nodes.length) (r j : Nat)
    (k : Key) : ((t.setRule i r).node j).next k = (t.node j).next k := by
  rw [node_setRule hi]
  split_ifs with h
  · subst h; cases k <;> rfl
  · rfl

private theorem children_setRule {t : Trie} {i : Nat} (hi : i < t.nodes.length) (r j : Nat) :
    ((t.setRule i r).node j).children = (t.node j).children := by
  rw [node_setRule hi]
  split_ifs with h
  · subst h; rfl
  · rfl

theorem Built.setRule {t : Trie} (hb : t.Built) {i : Nat} (hi : i < t.nodes.length) (r : Nat) :
    (t.setRule i r).Built := by
  have hlen : (t.setRule i r).nodes.length = t.nodes.length := by simp [Trie.setRule]
  refine ⟨by rw [hlen]; exact hb.pos, ?_, ?_, ?_, ?_⟩
  · intro j k j' h
    rw [next_setRule hi] at h
    rw [hlen]
    exact hb.up h
  · intro j k j' k' x h h'
    rw [next_setRule hi] at h h'
    exact hb.parent h h'
  · intro j e he
    rw [children_setRule hi] at he
    exact hb.single he
  · intro j
    rw [children_setRule hi]
    exact hb.nodup j

private theorem goto_setRule {t : Trie} {i : Nat} (hi : i < t.nodes.length) (r j : Nat)
    (ks : List Key) : (t.setRule i r).goto j ks = t.goto j ks := by
  induction ks generalizing j with
  | nil => rfl
  | cons k ks ih =>
      simp only [goto, next_setRule hi]
      cases (t.node j).next k with
      | none => rfl
      | some a => exact ih a

theorem ruleAt_setRule {t : Trie} (hb : t.Built) {i : Nat} (hi : i < t.nodes.length)
    {ks : List Key} (hg : t.goto 0 ks = some i) (r : Nat) :
    (t.setRule i r).ruleAt = Function.update t.ruleAt ks r := by
  funext ks'
  unfold ruleAt
  rw [goto_setRule hi]
  by_cases hks : ks' = ks
  · subst hks
    rw [Function.update_self, hg]
    simp only [node_setRule hi, if_pos]
  · rw [Function.update_of_ne hks]
    cases hg' : t.goto 0 ks' with
    | none => rfl
    | some j =>
        have hj : j ≠ i := by
          rintro rfl
          exact hks (hb.goto_inj hg' hg)
        simp only [node_setRule hi, if_neg hj]

/-! ## What `add` does to the rules -/

/-- The call ends, and with what. -/
theorem add_text {t : Trie} (hb : t.Built) (p : Pattern) (r : Nat) :
    (t.ruleAt p.keys = 0 ∧ ∃ t', t.add p.text r = .done t' ∧ t'.Built ∧
        t'.ruleAt = Function.update t.ruleAt p.keys r) ∨
      (t.ruleAt p.keys ≠ 0 ∧ ∃ t', t.add p.text r = .thrown t' ∧ t'.Built ∧
        t'.ruleAt = t.ruleAt) := by
  obtain ⟨hb', he, hlt, hg⟩ := followAll_spec hb hb.pos p.keys
  have hrule : t.ruleAt p.keys
      = ((t.followAll 0 p.keys).1.node (t.followAll 0 p.keys).2).ruleIndex := by
    rw [← he.ruleAt hb', ruleAt, hg]
  have hadd : t.add p.text r =
      if t.ruleAt p.keys ≠ 0 then .thrown (t.followAll 0 p.keys).1
      else .done ((t.followAll 0 p.keys).1.setRule (t.followAll 0 p.keys).2 r) := by
    rw [hrule, add, addLoop_text p _ (Nat.le_refl _)]
    rfl
  by_cases h0 : t.ruleAt p.keys = 0
  · refine Or.inl ⟨h0, _, by rw [hadd, if_neg (by simpa using h0)], hb'.setRule hlt r, ?_⟩
    rw [ruleAt_setRule hb' hlt hg, he.ruleAt hb']
  · exact Or.inr ⟨h0, _, by rw [hadd, if_pos h0], hb', he.ruleAt hb'⟩

/-- **A call of `add` that returns updates the rule of its pattern and no other**, and the
pattern had no rule before. -/
theorem add_done {t t' : Trie} (hb : t.Built) {p : Pattern} {r : Nat}
    (h : t.add p.text r = .done t') :
    t'.Built ∧ t.ruleAt p.keys = 0 ∧ t'.ruleAt = Function.update t.ruleAt p.keys r := by
  rcases add_text hb p r with ⟨h0, t'', hd, hb', hr⟩ | ⟨-, t'', hd, -⟩
  · rw [h] at hd; cases hd
    exact ⟨hb', h0, hr⟩
  · rw [h] at hd; cases hd

/-- The rules after a call of `add` that returns. -/
theorem ruleAt_add {t t' : Trie} (hb : t.Built) {p : Pattern} {r : Nat}
    (h : t.add p.text r = .done t') {m : Nat} (hm : m ≠ 0) (ks : List Key) :
    t'.ruleAt ks = m ↔ t.ruleAt ks = m ∨ r = m ∧ p.keys = ks := by
  obtain ⟨-, h0, hr⟩ := add_done hb h
  rw [hr]
  by_cases hks : ks = p.keys
  · subst hks
    rw [Function.update_self, h0]
    constructor
    · exact fun h => Or.inr ⟨h, rfl⟩
    · rintro (h | ⟨h, -⟩)
      · exact absurd h.symm hm
      · exact h
  · rw [Function.update_of_ne hks]
    constructor
    · exact Or.inl
    · rintro (h | ⟨-, h⟩)
      · exact h
      · exact absurd h.symm hks

/-- The text of a pattern determines its edges. -/
theorem keys_of_text {p q : Pattern} (h : p.text = q.text) : p.keys = q.keys := by
  have hp := addLoop_text p _ (Nat.le_refl _) ({} : Trie) 0
  have hq := addLoop_text q _ (Nat.le_refl _) ({} : Trie) 0
  rw [h, hq, Option.some.injEq] at hp
  obtain ⟨hb, -, -, hgp⟩ := followAll_spec built_empty built_empty.pos p.keys
  obtain ⟨-, -, -, hgq⟩ := followAll_spec built_empty built_empty.pos q.keys
  rw [hp] at hgq
  exact hb.goto_inj hgp hgq

/-- A call of `add` ends only on the text of a pattern. -/
theorem text_of_add {t : Trie} {url : Bytes} {r : Nat} (h : t.add url r ≠ .diverged) :
    ∃ p : Pattern, p.text = url := by
  cases hl : addLoop url.length t 0 url with
  | none => exact absurd (by rw [add, hl]) h
  | some x => exact text_of_addLoop hl

/-- How a call of `add` on any text can end. -/
theorem add_cases {t : Trie} (hb : t.Built) (url : Bytes) (r : Nat) :
    t.add url r = .diverged ∨ ∃ p : Pattern, p.text = url ∧
      ((t.ruleAt p.keys = 0 ∧ ∃ t', t.add url r = .done t' ∧ t'.Built ∧
          t'.ruleAt = Function.update t.ruleAt p.keys r) ∨
        (t.ruleAt p.keys ≠ 0 ∧ ∃ t', t.add url r = .thrown t' ∧ t'.Built ∧
          t'.ruleAt = t.ruleAt)) := by
  by_cases hd : t.add url r = .diverged
  · exact Or.inl hd
  · obtain ⟨p, rfl⟩ := text_of_add hd
    exact Or.inr ⟨p, rfl, add_text hb p r⟩

/-- The texts of a list of patterns with their rule indexes. -/
def texts (routes : List (Pattern × Nat)) : List (Bytes × Nat) :=
  routes.map (fun r => (r.1.text, r.2))

/-- Calls of `add` that all return were made with the texts of patterns. -/
theorem texts_of_addAll {t t' : Trie} {rs : List (Bytes × Nat)} (h : t.addAll rs = some t') :
    ∃ routes, texts routes = rs := by
  induction rs generalizing t with
  | nil => exact ⟨[], rfl⟩
  | cons r rs ih =>
      rw [addAll] at h
      cases hr : t.add r.1 r.2 with
      | thrown t₁ => rw [hr] at h; cases h
      | diverged => rw [hr] at h; cases h
      | done t₁ =>
          rw [hr] at h
          have hends : t.add r.1 r.2 ≠ .diverged := by rw [hr]; simp
          obtain ⟨p, hp⟩ := text_of_add hends
          obtain ⟨routes, hroutes⟩ := ih h
          exact ⟨(p, r.2) :: routes, by rw [texts, List.map_cons, hp]; exact congrArg _ hroutes⟩

theorem built_addAll {t t' : Trie} (hb : t.Built) {routes : List (Pattern × Nat)}
    (h : t.addAll (texts routes) = some t') : t'.Built := by
  induction routes generalizing t with
  | nil => cases h; exact hb
  | cons r routes ih =>
      rw [texts, List.map_cons, addAll] at h
      cases hr : t.add r.1.text r.2 with
      | thrown t₁ => rw [hr] at h; cases h
      | diverged => rw [hr] at h; cases h
      | done t₁ =>
          rw [hr] at h
          exact ih (add_done hb hr).1 h

private theorem ruleAt_addAll_from {t t' : Trie} (hb : t.Built) {routes : List (Pattern × Nat)}
    (h : t.addAll (texts routes) = some t') {ks : List Key}
    {m : Nat} (hm : m ≠ 0) :
    t'.ruleAt ks = m ↔ t.ruleAt ks = m ∨ ∃ p : Pattern, (p, m) ∈ routes ∧ p.keys = ks := by
  induction routes generalizing t with
  | nil => cases h; simp
  | cons r routes ih =>
      rw [texts, List.map_cons, addAll] at h
      cases hr : t.add r.1.text r.2 with
      | thrown t₁ => rw [hr] at h; cases h
      | diverged => rw [hr] at h; cases h
      | done t₁ =>
          rw [hr] at h
          rw [ih (add_done hb hr).1 h, ruleAt_add hb hr hm, or_assoc]
          refine or_congr_right ?_
          constructor
          · rintro (⟨rfl, hk⟩ | ⟨p, hp, hk⟩)
            · exact ⟨r.1, List.mem_cons_self, hk⟩
            · exact ⟨p, List.mem_cons_of_mem _ hp, hk⟩
          · rintro ⟨p, hp, hk⟩
            rcases List.mem_cons.mp hp with rfl | hp
            · exact Or.inl ⟨rfl, hk⟩
            · exact Or.inr ⟨p, hp, hk⟩

/-- **After calls that all return the trie holds exactly the registered patterns.** -/
theorem ruleAt_addAll {t : Trie} {routes : List (Pattern × Nat)}
    (h : addAll {} (texts routes) = some t) {ks : List Key}
    {m : Nat} (hm : m ≠ 0) :
    t.ruleAt ks = m ↔ ∃ p : Pattern, (p, m) ∈ routes ∧ p.keys = ks := by
  rw [ruleAt_addAll_from built_empty h hm, ruleAt_empty]
  constructor
  · rintro (h0 | hp)
    · exact absurd h0.symm hm
    · exact hp
  · exact Or.inr

end Trie

end Suil.Routing
